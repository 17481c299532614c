import Arachne.Oracle.Linearizability
import Mathlib.Data.List.Pairwise

/-! # The search is exact

`Linearization` is what the checker decides, in terms of its own: an order of the required points and of some optional
ones, in keeping with real time, in which a map gives every required answer. A successful search leaves such an order
behind, once the points it skipped are dropped (`linearization_of_search`). The other way round the points that were left
out have to be put back, since the search takes up every point and releases the ones that wait for it. They fit in,
because the real-time order of operations that end after they begin is transitive (`search_of_linearization`).

The witness of a violation is found by the same search, so what it names has no such order either. -/

namespace Arachne.Oracle

open Schedule (Legal)

/-! ## What is decided -/

/-- Real-time precedence. Two operations that both precede each other do not count. -/
def LogOp.Precedes (a b : LogOp) : Prop := a.completesBefore b ∧ ¬ b.completesBefore a

/-- The operation takes effect, and a required one returns what was observed. -/
def Places (points : List LogOp) (i : Nat) (x y : KvState) : Prop :=
  ∃ point, points[i]? = some point ∧ (point.kind = .required → point.result = some (x.apply point.op).2) ∧
    y = (x.apply point.op).1

/-- `order` lists all required points and some optional ones, in keeping with real time, and every answer of a required
one is that of the map. -/
structure Linearization (points : List LogOp) (initial : KvState) (order : List Nat) : Prop where
  nodup : order.Nodup
  range : ∀ i ∈ order, i < points.length
  required : ∀ i point, points[i]? = some point → point.kind = .required → i ∈ order
  realTime : order.Pairwise fun i j => ∀ p q, points[i]? = some p → points[j]? = some q → ¬ q.Precedes p
  answers : Legal (Places points) order initial

def Linearizable (points : List LogOp) (initial : KvState) : Prop := ∃ order, Linearization points initial order

/-- Invocation not after completion. -/
def LogOp.Timely (o : LogOp) : Prop := ∀ c ∈ o.completeTs, o.invokeTs ≤ c

variable {points : List LogOp}

/-! ## Edges are precedence -/

theorem mem_pairsBelow_of_lt {n a b : Nat} (h : a < b) (hb : b < n) : (a, b) ∈ pairsBelow n := by
  refine List.mem_flatMap.mpr ⟨a, List.mem_range.mpr (Nat.lt_trans h hb), List.mem_map.mpr ⟨b, ?_, rfl⟩⟩
  rw [List.mem_range'_1]
  omega

theorem mem_edges_iff {i j : Nat} :
    (i, j) ∈ edges points ↔ ∃ p q, points[i]? = some p ∧ points[j]? = some q ∧ p.Precedes q := by
  constructor
  · intro h
    obtain ⟨⟨a, b⟩, -, hedge⟩ := List.mem_filterMap.mp h
    simp only [edgeOf] at hedge
    split at hedge
    · next p q hp hq =>
      split_ifs at hedge with hforward hbackward
      · obtain ⟨rfl, rfl⟩ := Prod.mk.inj (Option.some.inj hedge)
        exact ⟨p, q, hp, hq, by simpa [LogOp.Precedes] using hforward⟩
      · obtain ⟨rfl, rfl⟩ := Prod.mk.inj (Option.some.inj hedge)
        exact ⟨q, p, hq, hp, by simpa [LogOp.Precedes] using hbackward⟩
    · cases hedge
  · rintro ⟨p, q, hp, hq, hbefore, hafter⟩
    have hi := (List.getElem?_eq_some_iff.mp hp).1
    have hj := (List.getElem?_eq_some_iff.mp hq).1
    have hafter : q.completesBefore p = false := Bool.eq_false_iff.mpr hafter
    rcases Nat.lt_trichotomy i j with hlt | rfl | hgt
    · refine List.mem_filterMap.mpr ⟨(i, j), mem_pairsBelow_of_lt hlt hj, ?_⟩
      simp [edgeOf, hp, hq, hbefore, hafter]
    · obtain rfl := Option.some.inj (hp.symm.trans hq)
      rw [hbefore] at hafter
      cases hafter
    · refine List.mem_filterMap.mpr ⟨(j, i), mem_pairsBelow_of_lt hgt hi, ?_⟩
      simp [edgeOf, hp, hq, hbefore, hafter]

/-- Precedence of operations that end after they begin is transitive. -/
theorem LogOp.Precedes.trans {p q r : LogOp} (hp : p.Timely) (hq : q.Timely) (hpq : p.Precedes q) (hqr : q.Precedes r) :
    p.Precedes r := by
  obtain ⟨cp, hcp, hpq'⟩ := (Option.any_eq_true _ _).mp hpq.1
  obtain ⟨cq, hcq, hqr'⟩ := (Option.any_eq_true _ _).mp hqr.1
  have hpq' := of_decide_eq_true hpq'
  have hqr' := of_decide_eq_true hqr'
  refine ⟨(Option.any_eq_true _ _).mpr ⟨cp, hcp, decide_eq_true ?_⟩, fun hrp => ?_⟩
  · exact UInt64.le_trans hpq' (UInt64.le_trans (hq cq hcq) hqr')
  · -- otherwise `r` would also precede `q`
    obtain ⟨cr, hcr, hrp'⟩ := (Option.any_eq_true _ _).mp hrp
    refine hqr.2 ((Option.any_eq_true _ _).mpr ⟨cr, hcr, decide_eq_true ?_⟩)
    exact UInt64.le_trans (of_decide_eq_true hrp') (UInt64.le_trans (hp cp hcp) hpq')

/-! ## A successful search leaves an order -/

/-- What a successful search did first. -/
theorem exists_resolves_of_dfs {successors : Nat → List Nat} {left : Nat} {resolved : Nat → Bool}
    {remainingPred : Nat → Nat} {state : KvState} (h : dfs points successors (left + 1) resolved remainingPred state = true) :
    ∃ i next, resolved i = false ∧ remainingPred i = 0 ∧ Resolves points i state next ∧
      dfs points successors left (Function.update resolved i true) (release (successors i) remainingPred) next = true := by
  rw [dfs, List.any_eq_true] at h
  obtain ⟨i, -, h⟩ := h
  split at h
  · cases h
  · next point hpoint =>
    split_ifs at h with hskip
    obtain ⟨hresolved, hpred⟩ : resolved i = false ∧ remainingPred i = 0 := by simpa using hskip
    rw [Bool.or_eq_true, Bool.and_eq_true, Bool.and_eq_true] at h
    rcases h with ⟨hmatch, hrest⟩ | ⟨hoptional, hrest⟩
    · refine ⟨i, _, hresolved, hpred, ⟨point, hpoint, .inl ⟨fun hkind => ?_, rfl⟩⟩, hrest⟩
      simpa [hkind, observedMatches] using hmatch
    · refine ⟨i, state, hresolved, hpred, ⟨point, hpoint, .inr ⟨?_, rfl⟩⟩, hrest⟩
      cases hkind : point.kind with
      | optional => rfl
      | required => simp [hkind] at hoptional

/-- **A successful search leaves a legal order** of the points that were open. -/
theorem legal_of_dfs {es : List (Nat × Nat)} {successors : Nat → List Nat} {left : Nat} {resolved : Nat → Bool}
    {remainingPred : Nat → Nat} {state : KvState}
    (hsuccessors : ∀ i, successors i = (es.filter fun e => e.1 = i).map Prod.snd)
    (hpred : ∀ j, remainingPred j = es.countP fun e => e.2 = j && !resolved e.1)
    (h : dfs points successors left resolved remainingPred state = true) :
    ∃ order, order.length = left ∧ order.Nodup ∧ (∀ i ∈ order, resolved i = false) ∧
      order.Pairwise (fun i j => (j, i) ∉ es) ∧ Legal (Resolves points) order state := by
  induction left generalizing resolved remainingPred state with
  | zero => exact ⟨[], rfl, .nil, fun _ hi => absurd hi List.not_mem_nil, .nil, trivial⟩
  | succ left ih =>
      obtain ⟨i, next, hi, hzero, hresolves, hrest⟩ := exists_resolves_of_dfs h
      obtain ⟨order, hlength, hnodup, hopen, hsorted, hlegal⟩ := ih
        (fun j => by rw [release_apply, hsuccessors, hpred, countP_resolve hi]) hrest
      have hnew : ∀ j ∈ order, j ≠ i ∧ resolved j = false := by
        intro j hj
        have hopen := hopen j hj
        by_cases hij : j = i
        · rw [hij, Function.update_self] at hopen
          cases hopen
        · rw [Function.update_of_ne hij] at hopen
          exact ⟨hij, hopen⟩
      refine ⟨i :: order, congrArg (· + 1) hlength, List.nodup_cons.mpr ⟨fun hmem => (hnew i hmem).1 rfl, hnodup⟩, ?_, ?_,
        next, hresolves, hlegal⟩
      · exact List.forall_mem_cons.mpr ⟨hi, fun j hj => (hnew j hj).2⟩
      · refine List.pairwise_cons.mpr ⟨fun j hj hedge => ?_, hsorted⟩
        -- `i` was taken while `j` was open, so it did not have to wait for it
        rw [hpred, List.countP_eq_zero] at hzero
        exact hzero (j, i) hedge (by simp [(hnew j hj).2])

theorem lt_of_legal {order : List Nat} {state : KvState} (h : Legal (Resolves points) order state) :
    ∀ i ∈ order, i < points.length := by
  induction order generalizing state with
  | nil => exact fun _ hi => absurd hi List.not_mem_nil
  | cons i order ih =>
      obtain ⟨next, ⟨point, hpoint, -⟩, hrest⟩ := h
      exact List.forall_mem_cons.mpr ⟨(List.getElem?_eq_some_iff.mp hpoint).1, ih hrest⟩

/-- What is left of a legal order when the points it skips are dropped. -/
theorem exists_placed {order : List Nat} {state : KvState} (h : Legal (Resolves points) order state) :
    ∃ placed, placed.Sublist order ∧ Legal (Places points) placed state ∧
      ∀ i ∈ order, ∀ point, points[i]? = some point → point.kind = .required → i ∈ placed := by
  induction order generalizing state with
  | nil => exact ⟨[], .slnil, trivial, fun _ hi => absurd hi List.not_mem_nil⟩
  | cons i order ih =>
      obtain ⟨next, ⟨point, hpoint, hmove⟩, hrest⟩ := h
      obtain ⟨placed, hsub, hlegal, hrequired⟩ := ih hrest
      rcases hmove with ⟨hresult, hnext⟩ | ⟨hoptional, rfl⟩
      · refine ⟨i :: placed, hsub.cons_cons i, ⟨next, ⟨point, hpoint, hresult, hnext⟩, hlegal⟩, ?_⟩
        intro j hj q hq hkind
        rcases List.mem_cons.mp hj with rfl | hj
        · exact List.mem_cons_self
        · exact List.mem_cons_of_mem i (hrequired j hj q hq hkind)
      · refine ⟨placed, hsub.cons i, hlegal, ?_⟩
        intro j hj q hq hkind
        rcases List.mem_cons.mp hj with rfl | hj
        · obtain rfl := Option.some.inj (hpoint.symm.trans hq)
          rw [hoptional] at hkind
          cases hkind
        · exact hrequired j hj q hq hkind

/-- **Soundness** of the search. -/
theorem linearization_of_search {initial : KvState} (h : search points initial = true) : Linearizable points initial := by
  obtain ⟨order, hlength, hnodup, -, hsorted, hlegal⟩ := legal_of_dfs realTime_successors realTime_remainingPred h
  have hrange := lt_of_legal hlegal
  have hperm : order.Perm (List.range points.length) := by
    refine (List.subperm_of_subset hnodup fun i hi => List.mem_range.mpr (hrange i hi)).perm_of_length_le ?_
    rw [hlength, List.length_range]
  obtain ⟨placed, hsub, hanswers, hrequired⟩ := exists_placed hlegal
  refine ⟨placed, hnodup.sublist hsub, fun i hi => hrange i (hsub.subset hi), ?_, ?_, hanswers⟩
  · intro i point hpoint hkind
    have hi := (List.getElem?_eq_some_iff.mp hpoint).1
    exact hrequired i (hperm.mem_iff.mpr (List.mem_range.mpr hi)) point hpoint hkind
  · refine (hsorted.sublist hsub).imp fun hedge p q hp hq hprecedes => hedge ?_
    exact mem_edges_iff.mpr ⟨q, p, hq, hp, hprecedes⟩

/-! ## Every order is found -/

theorem legal_resolves {order : List Nat} {state : KvState} (h : Legal (Places points) order state) :
    Legal (Resolves points) order state := by
  induction order generalizing state with
  | nil => trivial
  | cons i order ih =>
      obtain ⟨next, ⟨point, hpoint, hmove⟩, hrest⟩ := h
      exact ⟨next, ⟨point, hpoint, .inl hmove⟩, ih hrest⟩

/-- **Completeness** of the search: the optional points that the order leaves out are put back where real time allows. -/
theorem search_of_linearization {initial : KvState} (htimely : ∀ o ∈ points, o.Timely)
    (h : Linearizable points initial) : search points initial = true := by
  obtain ⟨order, horder⟩ := h
  let extra := (List.range points.length).filter (· ∉ order)
  have hirrefl : ∀ i, ¬ (i, i) ∈ edges points := fun i hedge => (mem_edges hedge).1 rfl
  have htrans : ∀ i j k, (i, j) ∈ edges points → (j, k) ∈ edges points → (i, k) ∈ edges points := by
    intro i j k hij hjk
    obtain ⟨p, q, hp, hq, hpq⟩ := mem_edges_iff.mp hij
    obtain ⟨q', r, hq', hr, hqr⟩ := mem_edges_iff.mp hjk
    obtain rfl := Option.some.inj (hq.symm.trans hq')
    exact mem_edges_iff.mpr ⟨p, r, hp, hr,
      hpq.trans (htimely p (List.mem_of_getElem? hp)) (htimely q (List.mem_of_getElem? hq)) hqr⟩
  have hidle : ∀ i ∈ extra, ∀ s, Resolves points i s s := by
    intro i hi s
    obtain ⟨hrange, hnot⟩ := List.mem_filter.mp hi
    obtain ⟨point, hpoint⟩ : ∃ point, points[i]? = some point :=
      ⟨_, List.getElem?_eq_getElem (List.mem_range.mp hrange)⟩
    refine ⟨point, hpoint, .inr ⟨?_, rfl⟩⟩
    cases hkind : point.kind with
    | optional => rfl
    | required => exact absurd (horder.required i point hpoint hkind) (of_decide_eq_true hnot)
  have hsorted : order.Pairwise fun i j => ¬ (j, i) ∈ edges points := by
    refine horder.realTime.imp fun hreal hedge => ?_
    obtain ⟨q, p, hq, hp, hprecedes⟩ := mem_edges_iff.mp hedge
    exact hreal p q hp hq hprecedes
  obtain ⟨all, hperm, hall, hlegal⟩ :=
    Schedule.exists_extension hirrefl htrans hidle hsorted (legal_resolves horder.answers)
  have hpresent : ((List.range points.length).filter (· ∈ order)).Perm order := by
    refine (List.perm_ext_iff_of_nodup (List.nodup_range.filter _) horder.nodup).mpr fun i => ?_
    rw [List.mem_filter, List.mem_range, decide_eq_true_iff]
    exact and_iff_right_of_imp (horder.range i)
  have hpoints : (extra ++ order).Perm (List.range points.length) := by
    refine (List.perm_append_comm.trans (hpresent.symm.append_right extra)).trans ?_
    have hsplit := List.filter_append_perm (fun i => decide (i ∈ order)) (List.range points.length)
    simpa only [extra, decide_not] using hsplit
  exact search_of_legal (hperm.trans hpoints) hall hlegal

theorem search_iff {initial : KvState} (htimely : ∀ o ∈ points, o.Timely) :
    search points initial = true ↔ Linearizable points initial :=
  ⟨linearization_of_search, search_of_linearization htimely⟩

/-! ## The witness -/

/-- Shrinking keeps the search failing. -/
theorem shrink_spec {initial : KvState} (kept rest : List LogOp) (h : search (kept ++ rest) initial = false) :
    (shrink initial kept rest).Sublist (kept ++ rest) ∧ search (shrink initial kept rest) initial = false := by
  induction rest generalizing kept with
  | nil =>
      rw [List.append_nil] at h ⊢
      exact ⟨.refl _, h⟩
  | cons point rest ih =>
      rw [shrink]
      split_ifs with hneeded
      · have hsame : kept ++ [point] ++ rest = kept ++ point :: rest := by simp
        have hrest := ih (kept ++ [point]) (hsame ▸ h)
        rwa [hsame] at hrest
      · obtain ⟨hsub, hfails⟩ := ih kept (Bool.eq_false_iff.mpr hneeded)
        exact ⟨hsub.trans ((List.sublist_cons_self point rest).append_left kept), hfails⟩

/-- Operations are named by their calls, if no two of them share one. -/
theorem named_eq_filter {named : List LogOp} (hsub : named.Sublist points) (hcalls : ∀ o ∈ points, o.calls ≠ [])
    (hdisjoint : points.Pairwise fun a b => a.calls.Disjoint b.calls) :
    named = points.filter fun o => o.calls.any (· ∈ named.flatMap LogOp.calls) := by
  have hnodup : points.Nodup := by
    refine hdisjoint.imp_of_mem fun {a b} ha _ hab heq => ?_
    obtain ⟨c, hc⟩ := List.exists_mem_of_ne_nil _ (hcalls a ha)
    exact hab hc (heq ▸ hc)
  have hself : named.filter (fun o => o.calls.any (· ∈ named.flatMap LogOp.calls)) = named := by
    refine List.filter_eq_self.mpr fun o ho => ?_
    obtain ⟨c, hc⟩ := List.exists_mem_of_ne_nil _ (hcalls o (hsub.subset ho))
    exact List.any_eq_true.mpr ⟨c, hc, decide_eq_true (List.mem_flatMap.mpr ⟨o, ho, hc⟩)⟩
  have hle := hsub.filter fun o => o.calls.any (· ∈ named.flatMap LogOp.calls)
  rw [hself] at hle
  refine hle.eq_of_length_le ((List.subperm_of_subset (hnodup.filter _) ?_).length_le)
  intro o ho
  obtain ⟨hpoint, hany⟩ := List.mem_filter.mp ho
  obtain ⟨c, hc, hmem⟩ := List.any_eq_true.mp hany
  obtain ⟨o', ho', hc'⟩ := List.mem_flatMap.mp (of_decide_eq_true hmem)
  by_cases heq : o = o'
  · exact heq ▸ ho'
  · have : Std.Symm fun a b : LogOp => a.calls.Disjoint b.calls := ⟨fun _ _ h _ hb ha => h ha hb⟩
    exact absurd hc' (hdisjoint.forall hpoint (hsub.subset ho') heq hc)

/-- **The bounded search is exact.** On at most `MAX_CHECK_POINTS` points that end after they begin, the answer is
`Linearizable` exactly if there is a linearization. The operations a violation names have none: they are some of the
points, their calls are the witness, and if no two points share a call, they are all the points with a call in it. -/
theorem check_exact {ops : List LogOp} {initial : KvState}
    (hbound : (ops.filter LogOp.isPoint).length ≤ maxCheckPoints) (htimely : ∀ o ∈ ops.filter LogOp.isPoint, o.Timely) :
    (checkReduced ops initial = .linearizable ↔ Linearizable (ops.filter LogOp.isPoint) initial) ∧
      ∀ witness, checkReduced ops initial = .violation witness →
        ∃ named : List LogOp, named.Sublist (ops.filter LogOp.isPoint) ∧ named.flatMap LogOp.calls = witness ∧
          ¬ Linearizable named initial ∧
          ((∀ o ∈ ops.filter LogOp.isPoint, o.calls ≠ []) →
            (ops.filter LogOp.isPoint).Pairwise (fun a b => a.calls.Disjoint b.calls) →
            named = (ops.filter LogOp.isPoint).filter fun o => o.calls.any (· ∈ witness)) := by
  have hnot : ¬ (ops.filter LogOp.isPoint).length > maxCheckPoints := Nat.not_lt_of_le hbound
  rw [← search_iff htimely]
  generalize hpoints : ops.filter LogOp.isPoint = points at *
  simp only [checkReduced, hpoints, if_neg hnot]
  by_cases hnil : points = []
  · rw [if_pos hnil]
    subst hnil
    exact ⟨iff_of_true rfl rfl, fun _ h => by cases h⟩
  · rw [if_neg hnil]
    cases hsearch : search points initial with
    | true => exact ⟨iff_of_true rfl rfl, fun _ h => by cases h⟩
    | false =>
        refine ⟨iff_of_false (fun h => by cases h) Bool.false_ne_true, ?_⟩
        intro witness hwitness
        have hwitness : shrinkWitness points initial = witness := CheckOutcome.violation.inj hwitness
        obtain ⟨hsub, hfails⟩ := shrink_spec [] points hsearch
        refine ⟨shrink initial [] points, hsub, hwitness, ?_, ?_⟩
        · rw [← search_iff fun o ho => htimely o (hsub.subset ho), hfails]
          exact Bool.false_ne_true
        · intro hcalls hdisjoint
          rw [← hwitness]
          exact named_eq_filter hsub hcalls hdisjoint

/-- A write, and a read that begins when the write is complete. -/
def writeThenRead (answer : Option UInt64) : List LogOp :=
  [{ client := 1, seq := 1, op := .put [1] 5, invokeTs := 0, completeTs := some 1, result := some (.ok none), logIds := [], calls := [10] },
    { client := 2, seq := 1, op := .get [1], invokeTs := 2, completeTs := some 3, result := some (.ok answer), logIds := [], calls := [11] }]

/-- A read that misses the write is a violation, and one that returns it is not. -/
theorem check_exact_writeThenRead :
    checkReduced (writeThenRead none) .new = .violation [10, 11] ∧ checkReduced (writeThenRead (some 5)) .new = .linearizable ∧
      ¬ Linearizable ((writeThenRead none).filter LogOp.isPoint) .new ∧
      Linearizable ((writeThenRead (some 5)).filter LogOp.isPoint) .new := by
  have htimely : ∀ answer, ∀ o ∈ (writeThenRead answer).filter LogOp.isPoint, o.Timely := by
    intro answer o ho c hc
    simp only [writeThenRead, List.mem_filter, List.mem_cons, List.not_mem_nil, or_false] at ho
    obtain ⟨rfl | rfl, -⟩ := ho
    · obtain rfl := Option.some.inj hc
      exact (by decide : (0 : UInt64) ≤ 1)
    · obtain rfl := Option.some.inj hc
      exact (by decide : (2 : UInt64) ≤ 3)
  have hmissed : checkReduced (writeThenRead none) .new = .violation [10, 11] := by decide +kernel
  have hfound : checkReduced (writeThenRead (some 5)) .new = .linearizable := by decide +kernel
  refine ⟨hmissed, hfound, fun h => ?_, (check_exact (by decide) (htimely _)).1.mp hfound⟩
  have heq := (check_exact (by decide) (htimely none)).1.mpr h
  rw [hmissed] at heq
  cases heq

end Arachne.Oracle
