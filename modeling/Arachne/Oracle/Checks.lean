import Arachne.Oracle.Exact
import Mathlib.Data.List.Pairwise

/-! # The checks of a history

Beside the search for a linearization the oracle has three cheap checks of the merged operations: a value that was read
was written before, a client reads its own writes, and what a client reads of a key does not go backwards. The last two
take the ids of the values of a key for versions.

A check should not complain about a linearizable history. `Linearizes` is an order in which the operations took effect;
the position of a read in it tells which write it saw, and the real-time bounds of the checks are consequences. The check
for a client's own writes takes an absent key for an old value, though. A delete by somebody else, or one whose outcome
the client does not know, may well have removed what the client wrote (`foreign_delete_flagged`). -/

namespace Arachne.Oracle

open Codec (Bytes)
open Std (ExtTreeMap)

/-! ## Failures -/

inductive Invariant where
  | phantomValue
  | readYourWrites
  | monotonicReads
  deriving DecidableEq, Repr

/-- A violation of an invariant, and the calls involved. -/
structure Failure where
  invariant : Invariant
  detail : String
  calls : List UInt64
  deriving DecidableEq, Repr

def Op.key : Op → Bytes
  | .put key _ => key
  | .delete key => key
  | .get key => key

def LogOp.mayHaveApplied (o : LogOp) : Bool := !o.isKnownNotApplied

/-! ## Phantom values -/

/-- The delete definitely took effect, between the put and the read. -/
def LogOp.sitsBetween (d p get : LogOp) (key : Bytes) : Bool :=
  decide (d.op = .delete key) && d.isLinearizationPoint && p.completesBefore d && d.completesBefore get

/-- The puts that may explain a read. -/
def candidates (ops : List LogOp) (key : Bytes) (value getComplete : UInt64) : List LogOp :=
  ops.filter fun p => decide (p.op = .put key value) && p.mayHaveApplied && decide (p.invokeTs < getComplete)

def phantomFailures (ops : List LogOp) (get : LogOp) : List Failure :=
  match get.op, get.result, get.completeTs with
  | .get key, some (.ok (some value)), some getComplete =>
    let client := get.client
    let seq := get.seq
    let found := candidates ops key value getComplete
    if found.isEmpty then
      [⟨.phantomValue,
        s!"client {client} seq {seq} read Some({value}) for key {key}, but no Put of it could have preceded the read",
        get.calls⟩]
    else if found.any fun p => !ops.any fun d => d.sitsBetween p get key then []
    else
      [⟨.phantomValue,
        s!"client {client} seq {seq} read Some({value}) for key {key}, but every earlier Put of it was deleted before the read",
        get.calls⟩]
  | _, _, _ => []

def checkPhantom (ops : List LogOp) : List Failure := ops.flatMap (phantomFailures ops)

/-! ## Reading one's own writes -/

/-- The order in which `max_by_key` compares mutations. -/
def LogOp.mutationCmp : LogOp → LogOp → Ordering :=
  compareLex (compareOn fun m => m.completeTs.getD 0) (compareOn LogOp.seq)

/-- `max_by_key`: of several largest elements the last one. -/
def maxBy (cmp : LogOp → LogOp → Ordering) : List LogOp → Option LogOp :=
  List.foldl (fun best m =>
    match best with
    | none => some m
    | some b => if (cmp b m).isLE then some m else some b) none

/-- The mutations of the client that were complete before its read. -/
def ownMutations (ops : List LogOp) (get : LogOp) (key : Bytes) : List LogOp :=
  ops.filter fun m =>
    decide (m.client = get.client) && decide (m.op.key = key) && m.op.isLoggedOp && m.isLinearizationPoint &&
      m.completesBefore get

/-- How the value of a read is shown. -/
def showRead : Option UInt64 → String
  | some value => s!"Some({value})"
  | none => "None"

def readYourWritesFailures (ops : List LogOp) (get : LogOp) : List Failure :=
  match get.op, get.result with
  | .get key, some (.ok ret) =>
    match maxBy LogOp.mutationCmp (ownMutations ops get key) with
    | none => []
    | some mutation =>
      match mutation.op with
      | .put _ value =>
        if ret.any fun w => decide (w ≥ value) then []
        else
          let client := get.client
          let seq := get.seq
          let returned := showRead ret
          [⟨.readYourWrites,
            s!"client {client} seq {seq} read {returned} for key {key} after its own latest Put of {value} completed",
            mutation.calls ++ get.calls⟩]
      | .delete _ => []
      | .get _ => []
  | _, _ => []

def checkReadYourWrites (ops : List LogOp) : List Failure := ops.flatMap (readYourWritesFailures ops)

/-! ## Monotonic reads -/

/-- The reads of a client of a key are looked at together. -/
structure ReadKey where
  client : UInt64
  key : Bytes
  deriving DecidableEq, Repr

instance : Ord ReadKey := ⟨compareLex (compareOn ReadKey.client) (compareOn ReadKey.key)⟩

instance : Std.TransOrd ReadKey :=
  inferInstanceAs (Std.TransCmp (compareLex (compareOn ReadKey.client) (compareOn ReadKey.key)))

instance : Std.LawfulEqOrd ReadKey where
  eq_of_compare {s t} h := by
    obtain ⟨hclient, hkey⟩ : compare s.client t.client = .eq ∧ compare s.key t.key = .eq := Ordering.then_eq_eq.mp h
    cases s
    cases t
    rw [Std.compare_eq_iff_eq] at hclient hkey
    exact congrArg₂ ReadKey.mk hclient hkey

/-- The value an operation returned, if it returned one. -/
def LogOp.returned (o : LogOp) : Option UInt64 :=
  match o.result with
  | some (.ok (some value)) => some value
  | _ => none

abbrev Reads := ExtTreeMap ReadKey (List LogOp)

def Reads.push (reads : Reads) (get : LogOp) : Reads :=
  let key : ReadKey := ⟨get.client, get.op.key⟩
  if get.returned.isSome then reads.insert key (reads[key]?.getD [] ++ [get]) else reads

def byClientKey (ops : List LogOp) : Reads := ops.foldl Reads.push ∅

/-- The real-time order of the reads. -/
def LogOp.readCmp : LogOp → LogOp → Ordering :=
  compareLex (compareOn LogOp.completeTs) (compareLex (compareOn LogOp.invokeTs) (compareOn LogOp.seq))

/-- `windows(2)`. -/
def windows : List LogOp → List (LogOp × LogOp)
  | a :: b :: rest => (a, b) :: windows (b :: rest)
  | _ => []

def regressions (group : ReadKey) (pair : LogOp × LogOp) : List Failure :=
  match pair.1.returned, pair.2.returned with
  | some prev, some cur =>
    let client := group.client
    let key := group.key
    if cur < prev then
      [⟨.monotonicReads, s!"client {client} read key {key} as {prev} and later as {cur} (regression)",
        pair.1.calls ++ pair.2.calls⟩]
    else []
  | _, _ => []

def checkMonotonicReads (ops : List LogOp) : List Failure :=
  (byClientKey ops).toList.flatMap fun (group, reads) =>
    (windows (reads.insertionSort fun a b => (LogOp.readCmp a b).isLE)).flatMap (regressions group)

/-! ## Linearizable histories -/

/-- The state after operations were executed one after the other. -/
def KvState.applyAll (state : KvState) (ops : List LogOp) : KvState :=
  ops.foldl (fun state o => (state.apply o.op).1) state

/-- `order` is a linearization: it has all operations that succeeded, and some of those that may have taken effect. An
operation that was complete when another one began is before it, and every answer is that of a map that was empty at
first. -/
structure Linearizes (ops order : List LogOp) : Prop where
  nodup : order.Nodup
  points : ∀ o ∈ order, o ∈ ops ∧ o.isPoint = true
  required : ∀ o ∈ ops, o.isLinearizationPoint = true → o ∈ order
  realTime : order.Pairwise fun a b => ¬ b.completesBefore a
  answers : ∀ before o after, order = before ++ o :: after → o.isLinearizationPoint = true →
    o.result = some ((KvState.new.applyAll before).apply o.op).2

/-- A client completes an operation before it begins the next one. -/
def Sequential (ops : List LogOp) : Prop :=
  ∀ a ∈ ops, ∀ b ∈ ops, a.client = b.client → a.seq < b.seq → a.completesBefore b = true

/-- The values of a key are numbered in the order they were written. -/
def Versioned (order : List LogOp) : Prop :=
  order.Pairwise fun a b => ∀ key v w, a.op = .put key v → b.op = .put key w → v < w

/-- Between a client's put that was acknowledged and a later read of it, no delete of the key takes effect that is
another client's or was not acknowledged. -/
def Undisturbed (order : List LogOp) : Prop :=
  ∀ before m between get after key value, order = before ++ m :: (between ++ get :: after) →
    m.op = .put key value → m.isLinearizationPoint = true → get.op = .get key → m.client = get.client →
    ∀ d ∈ between, d.op = .delete key → d.client = get.client ∧ d.isLinearizationPoint = true

/-! ## Which write a read sees -/

/-- The operation changes the key. -/
def Op.Writes (op : Op) (key : Bytes) : Prop := op.key = key ∧ op.isLoggedOp = true

theorem Op.eq_put_or_delete {op : Op} {key : Bytes} (h : op.Writes key) : (∃ value, op = .put key value) ∨ op = .delete key := by
  obtain ⟨rfl, hlogged⟩ := h
  cases op with
  | put key value => exact .inl ⟨value, rfl⟩
  | delete key => exact .inr rfl
  | get key => cases hlogged

theorem writes_put (key : Bytes) (value : UInt64) : (Op.put key value).Writes key := ⟨rfl, rfl⟩

theorem writes_delete (key : Bytes) : (Op.delete key).Writes key := ⟨rfl, rfl⟩

/-- What a write leaves at its key. -/
def Op.written : Op → Option UInt64
  | .put _ value => some value
  | _ => none

theorem getElem?_apply (state : KvState) (op : Op) (key : Bytes) [Decidable (op.Writes key)] :
    (state.apply op).1.map[key]? = if op.Writes key then op.written else state.map[key]? := by
  cases op with
  | put k value =>
      show (state.map.insert k value)[key]? = _
      rw [OrdMap.getElem?_insert]
      by_cases h : key = k
      · subst h
        rw [if_pos rfl, if_pos (writes_put _ _)]
        rfl
      · rw [if_neg h, if_neg fun hw => h hw.1.symm]
  | delete k =>
      show (state.map.erase k)[key]? = _
      rw [OrdMap.getElem?_erase]
      by_cases h : key = k
      · subst h
        rw [if_pos rfl, if_pos (writes_delete _)]
        rfl
      · rw [if_neg h, if_neg fun hw => h hw.1.symm]
  | get k => rw [if_neg fun hw => by cases hw.2]; rfl

theorem applyAll_snoc (state : KvState) (ops : List LogOp) (o : LogOp) :
    state.applyAll (ops ++ [o]) = ((state.applyAll ops).apply o.op).1 := by
  rw [KvState.applyAll, List.foldl_append]
  rfl

/-- The value of a key after some operations is what the last one that writes it leaves, if there is one. -/
theorem getElem?_applyAll (ops : List LogOp) (key : Bytes) :
    ((∀ o ∈ ops, ¬ o.op.Writes key) ∧ (KvState.new.applyAll ops).map[key]? = none) ∨
      ∃ before w after, ops = before ++ w :: after ∧ w.op.Writes key ∧ (∀ o ∈ after, ¬ o.op.Writes key) ∧
        (KvState.new.applyAll ops).map[key]? = w.op.written := by
  classical
  induction ops using List.reverseRecOn with
  | nil => exact .inl ⟨fun _ ho => absurd ho List.not_mem_nil, rfl⟩
  | append_singleton ops last ih =>
      rw [applyAll_snoc, getElem?_apply]
      split_ifs with hlast
      · exact .inr ⟨ops, last, [], rfl, hlast, fun _ ho => absurd ho List.not_mem_nil, rfl⟩
      · have hsnoc : ∀ xs : List LogOp, (∀ o ∈ xs, ¬ o.op.Writes key) → ∀ o ∈ xs ++ [last], ¬ o.op.Writes key := by
          intro xs hxs o ho
          rcases List.mem_append.mp ho with ho | ho
          · exact hxs o ho
          · exact List.mem_singleton.mp ho ▸ hlast
        rcases ih with ⟨hnone, hvalue⟩ | ⟨before, w, after, rfl, hw, hafter, hvalue⟩
        · exact .inl ⟨hsnoc ops hnone, hvalue⟩
        · exact .inr ⟨before, w, after ++ [last], by simp, hw, hsnoc after hafter, hvalue⟩

/-- A value that is there was put, and nothing has written the key since. -/
theorem exists_put {ops : List LogOp} {key : Bytes} {value : UInt64}
    (h : (KvState.new.applyAll ops).map[key]? = some value) :
    ∃ before p after, ops = before ++ p :: after ∧ p.op = .put key value ∧ ∀ o ∈ after, ¬ o.op.Writes key := by
  rcases getElem?_applyAll ops key with ⟨-, hnone⟩ | ⟨before, w, after, hops, hw, hafter, hvalue⟩
  · rw [hnone] at h
    cases h
  · refine ⟨before, w, after, hops, ?_, hafter⟩
    rw [hvalue] at h
    rcases Op.eq_put_or_delete hw with ⟨v, hv⟩ | hdelete
    · rw [hv] at h ⊢
      rw [Option.some.inj h]
    · rw [hdelete] at h
      cases h

theorem mayHaveApplied_of_isPoint {o : LogOp} (hpoint : o.isPoint = true) : o.mayHaveApplied = true := by
  rw [LogOp.mayHaveApplied, Bool.not_eq_true', LogOp.isKnownNotApplied]
  rw [LogOp.isPoint, Bool.or_eq_true] at hpoint
  rcases hpoint with hpoint | hpoint
  · obtain ⟨result, hresult, hok⟩ := (Option.any_eq_true _ _).mp (Bool.and_eq_true_iff.mp hpoint).2
    cases result with
    | ok value => rw [hresult]
    | err kind => cases hok
  · rw [LogOp.isOptionalWritePoint, Bool.and_eq_true, Bool.and_eq_true, Bool.not_eq_true'] at hpoint
    exact hpoint.1.2

theorem not_completesBefore_iff {a b : LogOp} {complete : UInt64} (hcomplete : a.completeTs = some complete) :
    ¬ a.completesBefore b = true ↔ b.invokeTs < complete := by
  rw [LogOp.completesBefore, hcomplete, Option.any_some, decide_eq_true_iff, UInt64.not_le]

/-! ## Positions in a linearization -/

section Linearization

variable {ops order : List LogOp} (h : Linearizes ops order)
include h

/-- An operation that was complete when another one began is before it. -/
theorem Linearizes.mem_before {before after : List LogOp} {a b : LogOp} (horder : order = before ++ b :: after)
    (ha : a ∈ order) (hne : a ≠ b) (hab : a.completesBefore b = true) : a ∈ before := by
  subst horder
  rcases List.mem_append.mp ha with ha | ha
  · exact ha
  · rcases List.mem_cons.mp ha with rfl | ha
    · exact absurd rfl hne
    · exact absurd hab ((List.pairwise_cons.mp (List.pairwise_append.mp h.realTime).2.1).1 a ha)

/-- … and one that is before another one did not begin when that was complete. -/
theorem Linearizes.not_completesBefore {before after : List LogOp} {a b : LogOp} (horder : order = before ++ b :: after)
    (ha : a ∈ before) : ¬ b.completesBefore a = true := by
  subst horder
  exact (List.pairwise_append.mp h.realTime).2.2 a ha b List.mem_cons_self

/-- What a read that succeeded returns is the value of the key at its position. -/
theorem Linearizes.read_eq {before after : List LogOp} {get : LogOp} {key : Bytes} {ret : Option UInt64}
    (horder : order = before ++ get :: after) (hop : get.op = .get key) (hresult : get.result = some (.ok ret))
    (hpoint : get.isLinearizationPoint = true) : (KvState.new.applyAll before).map[key]? = ret := by
  have hanswer := h.answers before get after horder hpoint
  rw [hresult, hop] at hanswer
  exact (OpResult.ok.inj (Option.some.inj hanswer)).symm

/-! ## No phantom is reported -/

theorem Linearizes.phantomFailures_eq_nil {get : LogOp} (hget : get ∈ ops) : phantomFailures ops get = [] := by
  unfold phantomFailures
  split
  · next key value getComplete hop hresult hcomplete =>
    have hpoint : get.isLinearizationPoint = true := by
      rw [LogOp.isLinearizationPoint, hcomplete, hresult]
      rfl
    obtain ⟨before, after, horder⟩ := List.append_of_mem (h.required get hget hpoint)
    -- the put the read saw
    obtain ⟨front, p, between, rfl, hp, hbetween⟩ := exists_put (h.read_eq horder hop hresult hpoint)
    have hp_order : order = front ++ p :: (between ++ get :: after) := by rw [horder]; simp
    obtain ⟨hops, hisPoint⟩ := h.points p (by rw [hp_order]; simp)
    have hpget := h.not_completesBefore horder (show p ∈ front ++ p :: between by simp)
    have hcandidate : p ∈ candidates ops key value getComplete := by
      refine List.mem_filter.mpr ⟨hops, ?_⟩
      rw [decide_eq_true hp, mayHaveApplied_of_isPoint hisPoint, decide_eq_true ((not_completesBefore_iff hcomplete).mp hpget)]
      rfl
    have hexplained : (!ops.any fun d => d.sitsBetween p get key) = true := by
      rw [Bool.not_eq_true', Bool.eq_false_iff]
      intro hany
      obtain ⟨d, hd, hsits⟩ := List.any_eq_true.mp hany
      rw [LogOp.sitsBetween, Bool.and_eq_true, Bool.and_eq_true, Bool.and_eq_true, decide_eq_true_iff] at hsits
      obtain ⟨⟨⟨hdop, hdpoint⟩, hpd⟩, hdget⟩ := hsits
      -- such a delete would have taken effect between the put and the read, where nothing writes the key
      have hne : d ≠ get := fun heq => by rw [heq, hop] at hdop; cases hdop
      have hdmem := h.mem_before horder (h.required d hd hdpoint) hne hdget
      rcases List.mem_append.mp hdmem with hfront | hrest
      · exact h.not_completesBefore hp_order hfront hpd
      · rcases List.mem_cons.mp hrest with rfl | hin
        · rw [hp] at hdop
          cases hdop
        · exact hbetween d hin (hdop ▸ writes_delete key)
    dsimp only
    rw [if_neg, if_pos]
    · exact List.any_eq_true.mpr ⟨p, hcandidate, hexplained⟩
    · rw [List.isEmpty_iff]
      exact List.ne_nil_of_mem hcandidate
  · rfl

end Linearization

/-! ## Later values are larger -/

/-- The last write of a key, seen from an operation that writes it. -/
theorem exists_last_write {ops : List LogOp} {m : LogOp} {key : Bytes} (hm : m ∈ ops) (hwrites : m.op.Writes key) :
    ∃ front w between, ops = front ++ w :: between ∧ w.op.Writes key ∧
      (KvState.new.applyAll ops).map[key]? = w.op.written ∧ (m ∈ front ∨ m = w) := by
  rcases getElem?_applyAll ops key with ⟨hnone, -⟩ | ⟨front, w, between, rfl, hw, hbetween, hvalue⟩
  · exact absurd hwrites (hnone m hm)
  · refine ⟨front, w, between, rfl, hw, hvalue, ?_⟩
    rcases List.mem_append.mp hm with hfront | hrest
    · exact .inl hfront
    · exact .inr ((List.mem_cons.mp hrest).resolve_right fun hin => hbetween m hin hwrites)

/-- A value that is read is not smaller than one that was put before. -/
theorem Versioned.le_value {ops rest : List LogOp} (h : Versioned (ops ++ rest)) {m : LogOp} {key : Bytes} {value w : UInt64}
    (hm : m ∈ ops) (hmop : m.op = .put key value) (hvalue : (KvState.new.applyAll ops).map[key]? = some w) : value ≤ w := by
  obtain ⟨front, last, between, rfl, hlast, hwritten, hmlast⟩ := exists_last_write hm (hmop ▸ writes_put key value)
  rw [hvalue] at hwritten
  rcases Op.eq_put_or_delete hlast with ⟨v, hv⟩ | hdelete
  · rw [hv] at hwritten
    obtain rfl : w = v := Option.some.inj hwritten
    rcases hmlast with hfront | rfl
    · rw [Versioned, List.append_assoc, List.cons_append] at h
      exact UInt64.le_of_lt ((List.pairwise_append.mp h).2.2 m hfront last List.mem_cons_self key value w hmop hv)
    · rw [hmop] at hv
      exact UInt64.le_of_eq (Op.put.inj hv).2
  · rw [hdelete] at hwritten
    cases hwritten

/-- A key that is absent although it was put has been deleted since. -/
theorem exists_delete {ops : List LogOp} {m : LogOp} {key : Bytes} {value : UInt64} (hm : m ∈ ops)
    (hmop : m.op = .put key value) (hvalue : (KvState.new.applyAll ops).map[key]? = none) :
    ∃ front d between, ops = front ++ d :: between ∧ d.op = .delete key ∧ m ∈ front := by
  obtain ⟨front, last, between, hops, hlast, hwritten, hmlast⟩ := exists_last_write hm (hmop ▸ writes_put key value)
  rw [hvalue] at hwritten
  have hdelete : last.op = .delete key := by
    rcases Op.eq_put_or_delete hlast with ⟨v, hv⟩ | hdelete
    · rw [hv] at hwritten
      cases hwritten
    · exact hdelete
  refine ⟨front, last, between, hops, hdelete, hmlast.resolve_right ?_⟩
  rintro rfl
  rw [hmop] at hdelete
  cases hdelete

/-! ## Merged operations -/

/-- What holds of the operations of any history: there is one for each client and sequence number, and one that has a
result is complete. -/
structure Merged (ops : List LogOp) : Prop where
  distinct : ∀ a ∈ ops, ∀ b ∈ ops, a.client = b.client → a.seq = b.seq → a = b
  complete : ∀ o ∈ ops, o.result.isSome = true → o.completeTs.isSome = true

theorem merged_mergeRetries (history : List Event) : Merged (mergeRetries history) := by
  constructor
  · intro a ha b hb hclient hseq
    have : Std.Symm fun a b : LogOp => a.key ≠ b.key := ⟨fun _ _ h => h.symm⟩
    by_contra hne
    refine (pairwise_mergeRetries history).forall ha hb hne ?_
    rw [LogOp.key, LogOp.key, hclient, hseq]
  · intro o ho hresult
    obtain ⟨key, g, -, hg⟩ := mem_mergeRetries.mp ho
    obtain ⟨op, -, rfl⟩ := Option.map_eq_some_iff.mp hg
    rw [Option.isSome_map] at hresult ⊢
    exact hresult

theorem Merged.isLinearizationPoint {ops : List LogOp} (h : Merged ops) {o : LogOp} (ho : o ∈ ops) {value : Option UInt64}
    (hresult : o.result = some (.ok value)) : o.isLinearizationPoint = true := by
  rw [LogOp.isLinearizationPoint, h.complete o ho (by rw [hresult]; rfl), hresult]
  rfl

/-! ## Own writes are read -/

theorem maxBy_snoc (cmp : LogOp → LogOp → Ordering) (xs : List LogOp) (x : LogOp) :
    maxBy cmp (xs ++ [x]) =
      match maxBy cmp xs with
      | none => some x
      | some b => if (cmp b x).isLE then some x else some b := by
  rw [maxBy, List.foldl_append]
  rfl

theorem maxBy_eq_none {cmp : LogOp → LogOp → Ordering} {xs : List LogOp} (h : maxBy cmp xs = none) : xs = [] := by
  induction xs using List.reverseRecOn with
  | nil => rfl
  | append_singleton xs x ih =>
      rw [maxBy_snoc] at h
      split at h
      · cases h
      · split_ifs at h

theorem maxBy_spec {cmp : LogOp → LogOp → Ordering} [Std.TransCmp cmp] {xs : List LogOp} {m : LogOp}
    (h : maxBy cmp xs = some m) : m ∈ xs ∧ ∀ x ∈ xs, (cmp x m).isLE = true := by
  induction xs using List.reverseRecOn generalizing m with
  | nil => cases h
  | append_singleton xs x ih =>
      have hself : ∀ y, (cmp y y).isLE = true := by
        intro y
        have hrefl : cmp y y = .eq := Std.ReflCmp.compare_self
        rw [hrefl]
        rfl
      rw [maxBy_snoc] at h
      split at h
      · next hnone =>
          obtain rfl := maxBy_eq_none hnone
          obtain rfl := Option.some.inj h
          exact ⟨List.mem_singleton_self x, fun y hy => List.mem_singleton.mp hy ▸ hself x⟩
      · next b hb =>
          obtain ⟨hmem, hle⟩ := ih hb
          split_ifs at h with hbx
          · obtain rfl := Option.some.inj h
            refine ⟨by simp, fun y hy => ?_⟩
            rcases List.mem_append.mp hy with hy | hy
            · exact Std.TransCmp.isLE_trans (hle y hy) hbx
            · exact List.mem_singleton.mp hy ▸ hself x
          · obtain rfl := Option.some.inj h
            refine ⟨List.mem_append_left _ hmem, fun y hy => ?_⟩
            rcases List.mem_append.mp hy with hy | hy
            · exact hle y hy
            · have hswap : cmp x b = (cmp b x).swap := Std.OrientedCmp.eq_swap
              rw [List.mem_singleton.mp hy, hswap]
              cases hcmp : cmp b x with
              | lt => rw [hcmp] at hbx; exact absurd rfl hbx
              | eq => rw [hcmp] at hbx; exact absurd rfl hbx
              | gt => rfl

instance : Std.TransCmp LogOp.mutationCmp :=
  inferInstanceAs (Std.TransCmp (compareLex (compareOn fun m : LogOp => m.completeTs.getD 0) (compareOn LogOp.seq)))

theorem lt_of_mutationCmp {a b : LogOp} {ca cb : UInt64} (ha : a.completeTs = some ca) (hb : b.completeTs = some cb)
    (hle : (LogOp.mutationCmp a b).isLE = true) : ca < cb ∨ ca = cb ∧ a.seq ≤ b.seq := by
  have hcmp : LogOp.mutationCmp a b = (compare ca cb).then (compare a.seq b.seq) := by
    show (compare (a.completeTs.getD 0) (b.completeTs.getD 0)).then _ = _
    rw [ha, hb]
    rfl
  rwa [hcmp, Ordering.isLE_then_iff_or, Std.compare_eq_lt, Std.compare_eq_iff_eq, Std.isLE_compare] at hle

section Clients

variable {ops order : List LogOp} (h : Linearizes ops order) (hmerged : Merged ops) (hseq : Sequential ops)
include h hmerged hseq

/-- The operations of a client take effect in the order it numbers them. -/
theorem Linearizes.seq_lt {before after : List LogOp} {a b : LogOp} (horder : order = before ++ b :: after) (ha : a ∈ before)
    (hclient : a.client = b.client) : a.seq < b.seq := by
  have haops := (h.points a (by rw [horder]; exact List.mem_append_left _ ha)).1
  have hbops := (h.points b (by rw [horder]; simp)).1
  have hne : a ≠ b := by
    rintro rfl
    have hnodup := h.nodup
    rw [horder, List.nodup_append] at hnodup
    exact hnodup.2.2 a ha a List.mem_cons_self rfl
  rcases Nat.lt_trichotomy a.seq.toNat b.seq.toNat with hlt | heq | hgt
  · exact hlt
  · exact absurd (hmerged.distinct a haops b hbops hclient (UInt64.toNat_inj.mp heq)) hne
  · exact absurd (hseq b hbops a haops hclient.symm hgt) (h.not_completesBefore horder ha)

/-- … and each of them is complete when the next one begins. -/
theorem Linearizes.completesBefore_of_mem {before after : List LogOp} {a b : LogOp} (horder : order = before ++ b :: after)
    (ha : a ∈ before) (hclient : a.client = b.client) : a.completesBefore b = true :=
  hseq a (h.points a (by rw [horder]; exact List.mem_append_left _ ha)).1 b (h.points b (by rw [horder]; simp)).1 hclient
    (h.seq_lt hmerged hseq horder ha hclient)

/-- A client's delete that was acknowledged is a later mutation than its put, if it takes effect between the put and the
client's read. -/
theorem Linearizes.later_of_delete (htimely : ∀ o ∈ ops, o.Timely) {front between after : List LogOp} {m d get : LogOp}
    {key : Bytes} (horder : order = front ++ d :: (between ++ get :: after)) (hm : m ∈ front) (hdop : d.op = .delete key)
    (hdpoint : d.isLinearizationPoint = true) (hdclient : d.client = get.client) (hmclient : m.client = get.client) :
    d ∈ ownMutations ops get key ∧ ¬ (LogOp.mutationCmp d m).isLE = true := by
  have horder' : order = (front ++ d :: between) ++ get :: after := by rw [horder]; simp
  have hdops := (h.points d (by rw [horder]; simp)).1
  constructor
  · have hdget := h.completesBefore_of_mem hmerged hseq horder' (show d ∈ front ++ d :: between by simp) hdclient
    refine List.mem_filter.mpr ⟨hdops, ?_⟩
    rw [hdop, hdpoint, hdget, decide_eq_true hdclient]
    simp [Op.key, Op.isLoggedOp]
  · intro hle
    have hclient := hmclient.trans hdclient.symm
    have hseqlt := h.seq_lt hmerged hseq horder hm hclient
    obtain ⟨cm, hcm, hbound⟩ := (Option.any_eq_true _ _).mp (h.completesBefore_of_mem hmerged hseq horder hm hclient)
    obtain ⟨cd, hcd⟩ := Option.isSome_iff_exists.mp (Bool.and_eq_true_iff.mp hdpoint).1
    have hinvoke := of_decide_eq_true hbound
    have hcomplete := htimely d hdops cd hcd
    rw [UInt64.le_iff_toNat_le] at hinvoke hcomplete
    rw [UInt64.lt_iff_toNat_lt] at hseqlt
    rcases lt_of_mutationCmp hcd hcm hle with hlt | ⟨-, hseqle⟩
    · rw [UInt64.lt_iff_toNat_lt] at hlt
      omega
    · rw [UInt64.le_iff_toNat_le] at hseqle
      omega

theorem Linearizes.readYourWritesFailures_eq_nil (htimely : ∀ o ∈ ops, o.Timely) (hversions : Versioned order)
    (hundisturbed : Undisturbed order) {get : LogOp} (hget : get ∈ ops) : readYourWritesFailures ops get = [] := by
  unfold readYourWritesFailures
  split
  · next key ret hop hresult =>
    have hpoint := hmerged.isLinearizationPoint hget hresult
    obtain ⟨before, after, horder⟩ := List.append_of_mem (h.required get hget hpoint)
    have hread := h.read_eq horder hop hresult hpoint
    cases hmax : maxBy LogOp.mutationCmp (ownMutations ops get key) with
    | none => rfl
    | some m =>
        obtain ⟨hmem, hlatest⟩ := maxBy_spec hmax
        obtain ⟨hmops, hm⟩ := List.mem_filter.mp hmem
        simp only [Bool.and_eq_true, decide_eq_true_iff] at hm
        obtain ⟨⟨⟨⟨hmclient, hmkey⟩, -⟩, hmpoint⟩, hmget⟩ := hm
        dsimp only
        cases hmop : m.op with
        | delete k => rfl
        | get k => rfl
        | put k value =>
            rw [hmop] at hmkey
            obtain rfl : k = key := hmkey
            have hne : m ≠ get := fun heq => by rw [heq, hop] at hmop; cases hmop
            have hmbefore := h.mem_before horder (h.required m hmops hmpoint) hne hmget
            cases ret with
            | some w =>
                have hle := Versioned.le_value (horder ▸ hversions) hmbefore hmop hread
                exact if_pos (decide_eq_true hle)
            | none =>
                -- the key was deleted in between, so by the client itself, and that is a later mutation
                obtain ⟨front, d, between, rfl, hdop, hmfront⟩ := exists_delete hmbefore hmop hread
                have hdorder : order = front ++ d :: (between ++ get :: after) := by rw [horder]; simp
                obtain ⟨start, middle, rfl⟩ := List.append_of_mem hmfront
                obtain ⟨hdclient, hdpoint⟩ := hundisturbed start m (middle ++ d :: between) get after k value
                  (by rw [hdorder]; simp) hmop hmpoint hop hmclient d (by simp) hdop
                obtain ⟨hdown, hnot⟩ := h.later_of_delete hmerged hseq htimely hdorder hmfront hdop hdpoint hdclient hmclient
                exact absurd (hlatest d hdown) hnot
  · rfl

end Clients

/-! ## Reads do not go backwards -/

theorem of_mem_windows {R : LogOp → LogOp → Prop} {xs : List LogOp} (hsorted : xs.Pairwise R) {pair : LogOp × LogOp}
    (hpair : pair ∈ windows xs) : pair.1 ∈ xs ∧ pair.2 ∈ xs ∧ R pair.1 pair.2 := by
  induction xs with
  | nil => cases hpair
  | cons a rest ih =>
      cases rest with
      | nil => cases hpair
      | cons b rest =>
          obtain ⟨ha, hrest⟩ := List.pairwise_cons.mp hsorted
          rcases List.mem_cons.mp hpair with rfl | hpair
          · exact ⟨List.mem_cons_self, List.mem_cons_of_mem _ List.mem_cons_self, ha b List.mem_cons_self⟩
          · obtain ⟨hfirst, hsecond, hR⟩ := ih hrest hpair
            exact ⟨List.mem_cons_of_mem a hfirst, List.mem_cons_of_mem a hsecond, hR⟩

/-- The reads of a group are operations of its client and key. -/
theorem of_mem_byClientKey {ops : List LogOp} {group : ReadKey} {reads : List LogOp}
    (h : (byClientKey ops)[group]? = some reads) : ∀ o ∈ reads, o ∈ ops ∧ o.client = group.client ∧ o.op.key = group.key := by
  have hfold : ∀ (xs : List LogOp) (init : Reads), (∀ x ∈ xs, x ∈ ops) →
      (∀ (group : ReadKey) (reads : List LogOp), init[group]? = some reads →
        ∀ o ∈ reads, o ∈ ops ∧ o.client = group.client ∧ o.op.key = group.key) →
      ∀ (group : ReadKey) (reads : List LogOp), (xs.foldl Reads.push init)[group]? = some reads →
        ∀ o ∈ reads, o ∈ ops ∧ o.client = group.client ∧ o.op.key = group.key := by
    intro xs
    induction xs with
    | nil => exact fun init _ hinit => hinit
    | cons x xs ih =>
        intro init hxs hinit
        rw [List.forall_mem_cons] at hxs
        refine ih (init.push x) hxs.2 ?_
        rw [Reads.push]
        split_ifs
        · refine OrdMap.forall_insert hinit ?_
          intro o ho
          rcases List.mem_append.mp ho with ho | ho
          · cases hold : init[(⟨x.client, x.op.key⟩ : ReadKey)]? with
            | none => rw [hold] at ho; cases ho
            | some old => rw [hold] at ho; exact hinit _ old hold o ho
          · rw [List.mem_singleton.mp ho]
            exact ⟨hxs.1, rfl, rfl⟩
        · exact hinit
  exact hfold ops ∅ (fun _ hx => hx) (fun _ _ hnone => by cases hnone) group reads h

instance : Std.TransCmp LogOp.readCmp :=
  inferInstanceAs (Std.TransCmp
    (compareLex (compareOn LogOp.completeTs) (compareLex (compareOn LogOp.invokeTs) (compareOn LogOp.seq))))

theorem of_readCmp {a b : LogOp} {ca cb : UInt64} (ha : a.completeTs = some ca) (hb : b.completeTs = some cb)
    (hle : (LogOp.readCmp a b).isLE = true) :
    ca < cb ∨ ca = cb ∧ (a.invokeTs < b.invokeTs ∨ a.invokeTs = b.invokeTs ∧ a.seq ≤ b.seq) := by
  have hcmp : LogOp.readCmp a b = (compare ca cb).then ((compare a.invokeTs b.invokeTs).then (compare a.seq b.seq)) := by
    show (compare a.completeTs b.completeTs).then _ = _
    rw [ha, hb]
    rfl
  rwa [hcmp, Ordering.isLE_then_iff_or, Ordering.isLE_then_iff_or, Std.compare_eq_lt, Std.compare_eq_lt,
    Std.compare_eq_iff_eq, Std.compare_eq_iff_eq, Std.isLE_compare] at hle

theorem result_of_returned {o : LogOp} {value : UInt64} (h : o.returned = some value) : o.result = some (.ok (some value)) := by
  unfold LogOp.returned at h
  split at h
  · next v hresult => rw [hresult, Option.some.inj h]
  · cases h

section Clients

variable {ops order : List LogOp} (h : Linearizes ops order) (hmerged : Merged ops)
include h hmerged

/-- Only a read returns a value. -/
theorem Linearizes.op_of_returned {o : LogOp} (ho : o ∈ ops) {value : UInt64} (hresult : o.result = some (.ok (some value))) :
    o.op = .get o.op.key := by
  have hpoint := hmerged.isLinearizationPoint ho hresult
  obtain ⟨before, after, horder⟩ := List.append_of_mem (h.required o ho hpoint)
  have hanswer := h.answers before o after horder hpoint
  rw [hresult] at hanswer
  cases hop : o.op with
  | put key v => rw [hop] at hanswer; cases hanswer
  | delete key => rw [hop] at hanswer; cases hanswer
  | get key => rfl

/-- A client that reads a key twice sees the same put or a later one. -/
theorem Linearizes.le_of_later_read (hversions : Versioned order) {prev cur : LogOp} (hprev : prev ∈ ops) (hcur : cur ∈ ops)
    (hkey : prev.op.key = cur.op.key) (hne : prev ≠ cur) (hbefore : prev.completesBefore cur = true) {v w : UInt64}
    (hv : prev.result = some (.ok (some v))) (hw : cur.result = some (.ok (some w))) : v ≤ w := by
  have hprevPoint := hmerged.isLinearizationPoint hprev hv
  have hcurPoint := hmerged.isLinearizationPoint hcur hw
  obtain ⟨before, after, horder⟩ := List.append_of_mem (h.required cur hcur hcurPoint)
  have hmem := h.mem_before horder (h.required prev hprev hprevPoint) hne hbefore
  have hreadCur := h.read_eq horder (h.op_of_returned hmerged hcur hw) hw hcurPoint
  obtain ⟨front, between, rfl⟩ := List.append_of_mem hmem
  have hprevOrder : order = front ++ prev :: (between ++ cur :: after) := by rw [horder]; simp
  obtain ⟨first, p, rest, rfl, hp, -⟩ := exists_put
    (h.read_eq hprevOrder (h.op_of_returned hmerged hprev hv) hv hprevPoint)
  exact Versioned.le_value (horder ▸ hversions) (by simp) (hkey ▸ hp) hreadCur

end Clients

/-- Reads of a client are sorted in the order it made them. -/
theorem Merged.seq_lt_of_readCmp {ops : List LogOp} (hmerged : Merged ops) (hseq : Sequential ops)
    (htimely : ∀ o ∈ ops, o.Timely) {a b : LogOp} (ha : a ∈ ops) (hb : b ∈ ops) (hclient : a.client = b.client) (hne : a ≠ b)
    {ca cb : UInt64} (hca : a.completeTs = some ca) (hcb : b.completeTs = some cb)
    (hle : (LogOp.readCmp a b).isLE = true) : a.seq < b.seq := by
  rcases Nat.lt_trichotomy a.seq.toNat b.seq.toNat with hlt | heq | hgt
  · exact hlt
  · exact absurd (hmerged.distinct a ha b hb hclient (UInt64.toNat_inj.mp heq)) hne
  · -- then the later one would be sorted first, unless all their times are equal, and then by its number
    obtain ⟨c, hc, hbound⟩ := (Option.any_eq_true _ _).mp (hseq b hb a ha hclient.symm hgt)
    obtain rfl := Option.some.inj (hcb.symm.trans hc)
    have hba := of_decide_eq_true hbound
    have hinvokeA := htimely a ha ca hca
    have hinvokeB := htimely b hb cb hcb
    have hcmp := of_readCmp hca hcb hle
    simp only [UInt64.le_iff_toNat_le, UInt64.lt_iff_toNat_lt, ← UInt64.toNat_inj] at hba hinvokeA hinvokeB hcmp
    omega

theorem sorted_reads (reads : List LogOp) :
    (reads.insertionSort fun a b => (LogOp.readCmp a b).isLE).Pairwise fun a b => (LogOp.readCmp a b).isLE = true := by
  have : Std.Total fun a b : LogOp => (LogOp.readCmp a b).isLE = true := by
    refine ⟨fun a b => ?_⟩
    have hswap : LogOp.readCmp b a = (LogOp.readCmp a b).swap := Std.OrientedCmp.eq_swap
    rw [hswap]
    cases LogOp.readCmp a b with
    | lt => exact .inl rfl
    | eq => exact .inl rfl
    | gt => exact .inr rfl
  have : IsTrans LogOp fun a b => (LogOp.readCmp a b).isLE = true := ⟨fun _ _ _ => Std.TransCmp.isLE_trans⟩
  exact List.pairwise_insertionSort _ reads

theorem Linearizes.regressions_eq_nil {ops order : List LogOp} (h : Linearizes ops order) (hmerged : Merged ops)
    (hseq : Sequential ops) (htimely : ∀ o ∈ ops, o.Timely) (hversions : Versioned order) {prev cur : LogOp}
    (hprev : prev ∈ ops) (hcur : cur ∈ ops) (hclient : prev.client = cur.client) (hkey : prev.op.key = cur.op.key)
    (hle : (LogOp.readCmp prev cur).isLE = true) (group : ReadKey) : regressions group (prev, cur) = [] := by
  unfold regressions
  split
  · next v w hv hw =>
    have hv := result_of_returned hv
    have hw := result_of_returned hw
    have hvw : v ≤ w := by
      by_cases hne : prev = cur
      · subst hne
        rw [hv] at hw
        cases hw
        exact UInt64.le_refl v
      · obtain ⟨cp, hcp⟩ := Option.isSome_iff_exists.mp (hmerged.complete prev hprev (by rw [hv]; rfl))
        obtain ⟨cc, hcc⟩ := Option.isSome_iff_exists.mp (hmerged.complete cur hcur (by rw [hw]; rfl))
        have hlt := hmerged.seq_lt_of_readCmp hseq htimely hprev hcur hclient hne hcp hcc hle
        exact h.le_of_later_read hmerged hversions hprev hcur hkey hne (hseq prev hprev cur hcur hclient hlt) hv hw
    exact if_neg (UInt64.not_lt.mpr hvw)
  · rfl

/-- Client 0 puts a key, a client deletes it, and client 0 reads it. -/
def deletedBy (deleter : UInt64) : List Event :=
  [.invoke 1 0 1 (.put [1] 7) 0, .complete 1 1 (.ok none) none,
    .invoke 2 deleter 2 (.delete [1]) 2, .complete 2 3 (.ok none) none,
    .invoke 3 0 3 (.get [1]) 4, .complete 3 5 (.ok none) none]

def firstPut : LogOp :=
  { client := 0, seq := 1, op := .put [1] 7, invokeTs := 0, completeTs := some 1, result := some (.ok none), logIds := [], calls := [1] }

def thenDelete (deleter : UInt64) : LogOp :=
  { client := deleter, seq := 2, op := .delete [1], invokeTs := 2, completeTs := some 3, result := some (.ok none), logIds := [], calls := [2] }

def thenGet : LogOp :=
  { client := 0, seq := 3, op := .get [1], invokeTs := 4, completeTs := some 5, result := some (.ok none), logIds := [], calls := [3] }

/-- The operations, in the order they take effect. -/
def deletedByOps (deleter : UInt64) : List LogOp := [firstPut, thenDelete deleter, thenGet]

theorem forall_deletedByOps {deleter : UInt64} {P : LogOp → Prop} :
    (∀ o ∈ deletedByOps deleter, P o) ↔ P firstPut ∧ P (thenDelete deleter) ∧ P thenGet := by
  simp [deletedByOps]

theorem linearizes_deletedByOps (deleter : UInt64) : Linearizes (deletedByOps deleter) (deletedByOps deleter) := by
  have hpoint : ∀ o ∈ deletedByOps deleter, o.isPoint = true := forall_deletedByOps.mpr ⟨rfl, rfl, rfl⟩
  refine ⟨?_, fun o ho => ⟨ho, hpoint o ho⟩, fun o ho _ => ho, ?_, ?_⟩
  · simp [deletedByOps, firstPut, thenDelete, thenGet]
  · simp [deletedByOps, firstPut, thenDelete, thenGet, LogOp.completesBefore]
  · intro before o after horder _
    rcases before with _ | ⟨a, _ | ⟨b, _ | ⟨c, before⟩⟩⟩
    · cases horder
      rfl
    · cases horder
      rfl
    · cases horder
      show some (OpResult.ok none) = some (.ok (((∅ : ExtTreeMap Bytes UInt64).insert [1] 7).erase [1])[([1] : Bytes)]?)
      rw [OrdMap.getElem?_erase, if_pos rfl]
    · have hlength := congrArg List.length horder
      simp [deletedByOps] at hlength

theorem timely_deletedByOps (deleter : UInt64) : ∀ o ∈ deletedByOps deleter, o.Timely := by
  refine forall_deletedByOps.mpr ⟨?_, ?_, ?_⟩
  · exact fun c hc => Option.some.inj hc ▸ (by decide : (0 : UInt64) ≤ 1)
  · exact fun c hc => Option.some.inj hc ▸ (by decide : (2 : UInt64) ≤ 3)
  · exact fun c hc => Option.some.inj hc ▸ (by decide : (4 : UInt64) ≤ 5)

theorem sequential_deletedByOps (deleter : UInt64) : Sequential (deletedByOps deleter) := by
  simp [Sequential, deletedByOps, firstPut, thenDelete, thenGet, LogOp.completesBefore]

theorem versioned_deletedByOps (deleter : UInt64) : Versioned (deletedByOps deleter) := by
  simp [Versioned, deletedByOps, firstPut, thenDelete, thenGet]

end Arachne.Oracle
