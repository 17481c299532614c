import Arachne.Consensus.Ready
import Arachne.Data.Trace
import Arachne.Storage.FlushToken

/-! # Durability before disclosure

Nothing of a cycle that depends on its records is disclosed before the flushes of the cycle and of all cycles before it
were reported successful. A flush that failed is reported once; the cycle stays at the front of the queue for good, and
everything behind it with it. -/

namespace Arachne.Consensus

open Storage (WalStorage FlushJobResult find_done)
open Trace (Justified justified_nil justified_snoc)

variable {M : Type} {s s' : ReadySys M}

/-! ## What the two parts of `step` do -/

inductive ReadySys.Finishes (s : ReadySys M) (next : Phase) : ReadySys M → Prop where
  | waits : Finishes s next { s with phase := next }
  | durable {front : PendingPersist M} {rest : List (PendingPersist M)} (hpending : s.pending = front :: rest)
      (htoken : front.token = none) : Finishes s next (s.complete front rest)
  | fails {front : PendingPersist M} {rest : List (PendingPersist M)} {token : Nat} {s₁ : ReadySys M} {e : String}
      {error : NodeError} (hpending : s.pending = front :: rest) (htoken : front.token = some token)
      (hpoll : s.poll token = (s₁, some (.error e))) :
      Finishes s next ((s₁.emit (.reported token (.error e))).fail error)
  | lands {front : PendingPersist M} {rest : List (PendingPersist M)} {token : Nat} {s₁ : ReadySys M}
      (hpending : s.pending = front :: rest) (htoken : front.token = some token)
      (hpoll : s.poll token = (s₁, some (.ok ()))) :
      Finishes s next ((s₁.emit (.reported token (.ok ()))).complete front rest)

/-- A poll that reports nothing changes nothing. -/
theorem ReadySys.eq_of_poll_none {token : Nat} {s₁ : ReadySys M} (h : s.poll token = (s₁, none)) : s₁ = s := by
  unfold ReadySys.poll at h
  split_ifs at h
  · unfold WalStorage.pollFlush at h
    cases hfind : s.done.find? (·.id == token) with
    | none =>
        simp only [hfind] at h
        exact (Prod.mk.inj h).1.symm
    | some r =>
        simp only [hfind] at h
        cases (Prod.mk.inj h).2
  · cases (Prod.mk.inj h).2

theorem ReadySys.finishes (s : ReadySys M) (next : Phase) : s.Finishes next (s.finishPersisted next) := by
  unfold ReadySys.finishPersisted
  split
  next => exact .waits
  next front rest hpending =>
    split
    next htoken => exact .durable hpending htoken
    next token htoken =>
      split
      next hpoll =>
        rw [ReadySys.eq_of_poll_none hpoll]
        exact .waits
      next hpoll => exact .fails hpending htoken hpoll
      next hpoll => exact .lands hpending htoken hpoll

inductive ReadySys.Submits (s : ReadySys M) (ready : Ready M) : ReadySys M → Prop where
  | refused {store : WalStorage} {nextId : Nat} {e : NodeError} (hnext : s.nextId ≤ nextId) :
      Submits s ready ({ s with store, nextId }.fail e)
  | written {store : WalStorage} : Submits s ready ({ s with store }.enqueue ready none)
  | offloaded {store : WalStorage} (hoffloaded : s.offloaded = true) :
      Submits s ready
        ({ s with store, jobs := s.jobs ++ [s.nextId], nextId := s.nextId + 1 }.enqueue ready (some s.nextId))

/-- Records that are synced on the spot need no flush. -/
theorem no_flush_of_synchronous {store store' : WalStorage} {entries : List Storage.LogEntry}
    {hardState : Option Storage.HardState} {flush : Bool}
    (h : store.persistReadyRecords false entries hardState = .ok (store', flush)) : flush = false := by
  unfold Storage.WalStorage.persistReadyRecords at h
  rw [if_pos rfl] at h
  obtain ⟨a, -, ha⟩ := Transition.map_eq_ok.mp h
  exact (Prod.mk.inj ha).2.symm

theorem ReadySys.submits (s : ReadySys M) (ready : Ready M) (accepted : Bool) :
    s.Submits ready (s.submitReady ready accepted) := by
  unfold ReadySys.submitReady
  split
  next e _ =>
    show s.Submits ready ({ s with store := s.store, nextId := s.nextId }.fail (.raft e))
    exact .refused (Nat.le_refl _)
  next store _ =>
    split
    next e _ =>
      show s.Submits ready ({ s with store, nextId := s.nextId }.fail (.raft e))
      exact .refused (Nat.le_refl _)
    next => exact .written
    next store' hpersist =>
      have hoffloaded : s.offloaded = true := by
        by_contra hnot
        rw [Bool.not_eq_true] at hnot
        rw [hnot] at hpersist
        cases no_flush_of_synchronous hpersist
      cases accepted with
      | true => exact .offloaded hoffloaded
      | false => exact .refused (Nat.le_succ _)

/-! ## What an event needs -/

def Event.reportedToken : Event M → Option Nat
  | .reported token _ => some token
  | _ => none

/-- The events of a cycle's end. -/
def Event.finishes : Event M → Bool
  | .persisted _ _ | .sent _ _ _ | .returned _ _ => true
  | _ => false

/-- What depends on the records of cycle `c` is sent or returned. -/
def Event.Discloses (c : Nat) : Event M → Prop
  | .sent cycle _ _ | .returned cycle _ => cycle = c
  | _ => False

/-- Cycle `j` has no flush, or it was reported successful. -/
def Landed (cycles : List (Cycle M)) (trace : List (Event M)) (j : Nat) : Prop :=
  ∃ cycle, cycles[j]? = some cycle ∧ ∀ token ∈ cycle.token, .reported token (.ok ()) ∈ trace

/-- Reports come from the flusher, the end of a cycle after all flushes up to it, and what leaves early is not marked
as needing persistence. -/
def Event.Founded (cycles : List (Cycle M)) (pre : List (Event M)) : Event M → Prop
  | .reported token result => .flushed token result ∈ pre
  | .persisted c _ | .sent c _ _ | .returned c _ => ∀ j ≤ c, Landed cycles pre j
  | .fastPath c messages => ∃ cycle, cycles[c]? = some cycle ∧ messages = cycle.ready.messages
  | _ => True

/-- How a cycle ends. -/
def Cycle.ending (cycle : Cycle M) (c : Nat) : List (Event M) :=
  [.persisted c cycle.ready.number, .sent c cycle.pending.immediate cycle.ready.persistedMessages,
    .returned c cycle.pending.outcome]

theorem getElem?_append_of_eq_some {cycles : List (Cycle M)} {c : Nat} {cycle : Cycle M} (h : cycles[c]? = some cycle)
    (more : List (Cycle M)) : (cycles ++ more)[c]? = some cycle := by
  rw [List.getElem?_append_left (List.getElem?_eq_some_iff.mp h).1]
  exact h

theorem Landed.later {cycles : List (Cycle M)} {trace : List (Event M)} {j : Nat} (h : Landed cycles trace j)
    (events : List (Event M)) : Landed cycles (trace ++ events) j := by
  obtain ⟨cycle, hcycle, hreported⟩ := h
  exact ⟨cycle, hcycle, fun token htoken => List.mem_append_left _ (hreported token htoken)⟩

theorem Landed.more {cycles : List (Cycle M)} {trace : List (Event M)} {j : Nat} (h : Landed cycles trace j)
    (more : List (Cycle M)) : Landed (cycles ++ more) trace j := by
  obtain ⟨cycle, hcycle, hreported⟩ := h
  exact ⟨cycle, getElem?_append_of_eq_some hcycle more, hreported⟩

theorem Event.Founded.more {cycles : List (Cycle M)} {pre : List (Event M)} {e : Event M} (h : e.Founded cycles pre)
    (more : List (Cycle M)) : e.Founded (cycles ++ more) pre := by
  cases e with
  | persisted | sent | returned => exact fun j hj => (h j hj).more more
  | fastPath c messages =>
      obtain ⟨cycle, hcycle, hmessages⟩ := h
      exact ⟨cycle, getElem?_append_of_eq_some hcycle more, hmessages⟩
  | stepped | flushed | reported | failed => exact h

/-! ## The invariant -/

/-- The tokens that were given out, by where they are. -/
def ReadySys.tokens (s : ReadySys M) : List Nat :=
  s.trace.filterMap Event.reportedToken ++ (s.done.map (·.id) ++ s.jobs)

structure ReadySys.Inv (s : ReadySys M) : Prop where
  /-- The queue has the cycles that are not completed, in order. -/
  queue : s.pending = (s.cycles.drop s.completed).map Cycle.pending
  completed_le : s.completed ≤ s.cycles.length
  room : s.pending.length ≤ ReadySys.maxInFlightReadies
  offloaded : ∀ cycle ∈ s.cycles, cycle.token.isSome = true → s.offloaded = true
  /-- A job is with the flusher, or done, or reported, and it is there once. -/
  nodup : s.tokens.Nodup
  issued : ∀ token ∈ s.tokens, token < s.nextId
  flushed : ∀ r ∈ s.done, .flushed r.id r.result ∈ s.trace
  landed : ∀ j < s.completed, Landed s.cycles s.trace j
  founded : Justified (Event.Founded s.cycles) s.trace
  /-- The completed cycles have ended, in order and once each. -/
  ended : s.trace.filter Event.finishes = (s.cycles.take s.completed).zipIdx.flatMap fun x => x.1.ending x.2

namespace ReadySys.Inv

theorem start (store : WalStorage) (offloaded streamsSnapshots : Bool) :
    (ReadySys.start store offloaded streamsSnapshots : ReadySys M).Inv where
  queue := rfl
  completed_le := Nat.le_refl _
  room := Nat.zero_le _
  offloaded := nofun
  nodup := List.nodup_nil
  issued := nofun
  flushed := nofun
  landed := nofun
  founded := justified_nil
  ended := rfl

/-- Events that need nothing and are about no cycle. -/
theorem emit (h : s.Inv) {e : Event M} (hfounded : e.Founded s.cycles s.trace) (htoken : e.reportedToken = none)
    (hfinishes : e.finishes = false) : (s.emit e).Inv := by
  have htokens : (s.emit e).tokens = s.tokens := by
    show (s.trace ++ [e]).filterMap _ ++ _ = _
    rw [List.filterMap_append, List.filterMap_cons_none htoken, List.filterMap_nil, List.append_nil]
    rfl
  refine { h with nodup := ?_, issued := ?_, flushed := ?_, landed := ?_, founded := ?_, ended := ?_ }
  · rw [htokens]
    exact h.nodup
  · rw [htokens]
    exact h.issued
  · exact fun r hr => List.mem_append_left _ (h.flushed r hr)
  · exact fun j hj => (h.landed j hj).later [e]
  · exact justified_snoc h.founded hfounded
  · show (s.trace ++ [e]).filter _ = _
    rw [List.filter_append, List.filter_cons_of_neg (by rw [hfinishes]; exact Bool.false_ne_true), List.filter_nil,
      List.append_nil]
    exact h.ended

theorem fail (h : s.Inv) (e : NodeError) : (s.fail e).Inv := { h.emit (e := .failed e) trivial rfl rfl with }

/-- A new cycle at the end of the queue. -/
theorem push (h : s.Inv) (hroom : s.pending.length < ReadySys.maxInFlightReadies) (cycle : Cycle M)
    (hoffloaded : cycle.token.isSome = true → s.offloaded = true) (snapshotFrom : Option UInt64) (phase : Phase) :
    ReadySys.Inv
      { s with pending := s.pending ++ [cycle.pending], snapshotFrom, cycles := s.cycles ++ [cycle], phase } := by
  refine { h with
    queue := ?_, completed_le := ?_, room := ?_, offloaded := ?_, landed := ?_, founded := ?_, ended := ?_ }
  · show s.pending ++ [cycle.pending] = _
    rw [h.queue, List.drop_append_of_le_length h.completed_le, List.map_append]
    rfl
  · show s.completed ≤ (s.cycles ++ [cycle]).length
    rw [List.length_append]
    exact Nat.le_trans h.completed_le (Nat.le_add_right _ _)
  · show (s.pending ++ [cycle.pending]).length ≤ _
    rw [List.length_append]
    exact hroom
  · intro cycle' hmem
    rcases List.mem_append.mp hmem with hmem | hmem
    · exact h.offloaded cycle' hmem
    · rw [List.mem_singleton.mp hmem]
      exact hoffloaded
  · exact fun j hj => (h.landed j hj).more [cycle]
  · exact h.founded.imp fun pre e he => he.more [cycle]
  · show _ = ((s.cycles ++ [cycle]).take s.completed).zipIdx.flatMap _
    rw [List.take_append_of_le_length h.completed_le]
    exact h.ended

theorem enqueue_written (h : s.Inv) (hroom : s.pending.length < ReadySys.maxInFlightReadies) (ready : Ready M)
    (store : WalStorage) : ({ s with store }.enqueue ready none).Inv :=
  ReadySys.Inv.push (s := { s with store }) { h with } hroom ⟨ready, none, s.snapshotFrom⟩ nofun _ _

/-- A flush is submitted, and the fast-path messages leave. -/
theorem enqueue_offloaded (h : s.Inv) (hroom : s.pending.length < ReadySys.maxInFlightReadies)
    (hoffloaded : s.offloaded = true) (ready : Ready M) (store : WalStorage) :
    ({ s with store, jobs := s.jobs ++ [s.nextId], nextId := s.nextId + 1 }.enqueue ready (some s.nextId)).Inv := by
  have htokens : ReadySys.tokens { s with store, jobs := s.jobs ++ [s.nextId], nextId := s.nextId + 1 } =
      s.tokens ++ [s.nextId] := by
    unfold ReadySys.tokens
    rw [List.append_assoc, List.append_assoc]
  have hsubmitted : ReadySys.Inv { s with store, jobs := s.jobs ++ [s.nextId], nextId := s.nextId + 1 } := by
    refine { h with nodup := ?_, issued := ?_ }
    · rw [htokens, ← List.concat_eq_append, List.nodup_concat]
      exact ⟨fun hmem => Nat.lt_irrefl _ (h.issued _ hmem), h.nodup⟩
    · rw [htokens]
      intro token htoken
      rcases List.mem_append.mp htoken with htoken | htoken
      · exact Nat.lt_succ_of_lt (h.issued token htoken)
      · rw [List.mem_singleton.mp htoken]
        exact Nat.lt_succ_self _
  have hpushed := hsubmitted.push hroom ⟨ready, some s.nextId, s.snapshotFrom⟩ (fun _ => hoffloaded)
    (if ready.snapshot.isSome then none else s.snapshotFrom) .finishing
  refine hpushed.emit (e := .fastPath s.cycles.length ready.messages) ⟨⟨ready, some s.nextId, s.snapshotFrom⟩, ?_, rfl⟩
    rfl rfl
  exact List.getElem?_concat_length

/-- The flusher is done with a job. -/
theorem flush (h : s.Inv) {result : FlushJobResult} (hjob : result.id ∈ s.jobs) :
    ReadySys.Inv { s.emit (.flushed result.id result.result) with
      jobs := s.jobs.erase result.id, done := s.done ++ [result] } := by
  have hemit := h.emit (e := .flushed result.id result.result) trivial rfl rfl
  have hperm : ReadySys.tokens { s.emit (.flushed result.id result.result) with
      jobs := s.jobs.erase result.id, done := s.done ++ [result] } |>.Perm
      (s.emit (.flushed result.id result.result)).tokens := by
    refine List.Perm.append_left _ ?_
    show ((s.done ++ [result]).map (·.id) ++ s.jobs.erase result.id).Perm (s.done.map (·.id) ++ s.jobs)
    rw [List.map_append, List.append_assoc]
    exact (List.perm_cons_erase hjob).symm.append_left _
  refine { hemit with nodup := ?_, issued := ?_, flushed := ?_ }
  · exact hperm.nodup_iff.mpr hemit.nodup
  · exact fun token htoken => hemit.issued token (hperm.mem_iff.mp htoken)
  · intro r hr
    rcases List.mem_append.mp hr with hr | hr
    · exact hemit.flushed r hr
    · rw [List.mem_singleton.mp hr]
      exact List.mem_append_right _ List.mem_cons_self

/-- What a poll reports for a job that was flushed off-thread. -/
theorem of_poll {token : Nat} {s₁ : ReadySys M} {result : Except String Unit} (hoffloaded : s.offloaded = true)
    (hpoll : s.poll token = (s₁, some result)) :
    ∃ r store, s.done.find? (·.id == token) = some r ∧ r.result = result ∧
      s₁ = { s with store, done := s.done.eraseP (·.id == token) } := by
  unfold ReadySys.poll at hpoll
  rw [if_pos hoffloaded] at hpoll
  unfold WalStorage.pollFlush at hpoll
  cases hfind : s.done.find? (·.id == token) with
  | none =>
      simp only [hfind] at hpoll
      cases (Prod.mk.inj hpoll).2
  | some r =>
      simp only [hfind] at hpoll
      obtain ⟨hs, hresult⟩ := Prod.mk.inj hpoll
      exact ⟨r, _, rfl, Option.some.inj hresult, hs.symm⟩

/-- A report takes the result out of the flusher's list. -/
theorem report (h : s.Inv) {r : FlushJobResult} {token : Nat} (hfind : s.done.find? (·.id == token) = some r)
    (store : WalStorage) :
    ReadySys.Inv
      (ReadySys.emit { s with store, done := s.done.eraseP (·.id == token) } (.reported token r.result)) := by
  obtain ⟨hid, xs, ys, hdone, herase⟩ := find_done hfind
  have hmem : r ∈ s.done := List.mem_of_find?_eq_some hfind
  have hperm : (ReadySys.emit { s with store, done := s.done.eraseP (·.id == token) }
      (.reported token r.result)).tokens.Perm s.tokens := by
    show ((s.trace ++ [Event.reported token r.result]).filterMap Event.reportedToken ++
      ((s.done.eraseP (·.id == token)).map (·.id) ++ s.jobs)).Perm s.tokens
    unfold ReadySys.tokens
    rw [herase, hdone, List.filterMap_append, List.map_append, List.map_append, List.append_assoc]
    refine List.Perm.append_left _ ?_
    show (token :: (xs.map (·.id) ++ ys.map (·.id) ++ s.jobs)).Perm (xs.map (·.id) ++ r.id :: ys.map (·.id) ++ s.jobs)
    rw [hid]
    exact List.perm_middle.symm.append_right _
  refine { h with nodup := ?_, issued := ?_, flushed := ?_, landed := ?_, founded := ?_, ended := ?_ }
  · exact hperm.nodup_iff.mpr h.nodup
  · exact fun t ht => h.issued t (hperm.mem_iff.mp ht)
  · exact fun r' hr' => List.mem_append_left _ (h.flushed r' (List.mem_of_mem_eraseP hr'))
  · exact fun j hj => (h.landed j hj).later _
  · refine justified_snoc h.founded ?_
    show Event.flushed token r.result ∈ s.trace
    rw [← hid]
    exact h.flushed r hmem
  · show (s.trace ++ [_]).filter _ = _
    rw [List.filter_append]
    exact (List.append_nil _).trans h.ended

/-- The cycle at the front of the queue. -/
theorem front (h : s.Inv) {front : PendingPersist M} {rest : List (PendingPersist M)}
    (hpending : s.pending = front :: rest) :
    ∃ cycle, s.cycles[s.completed]? = some cycle ∧ cycle.pending = front ∧
      rest = (s.cycles.drop (s.completed + 1)).map Cycle.pending := by
  have hqueue := h.queue
  rw [hpending] at hqueue
  obtain ⟨cycle, cycles, hdrop, hfront, hrest⟩ := List.map_eq_cons_iff.mp hqueue.symm
  refine ⟨cycle, ?_, hfront, ?_⟩
  · rw [← List.head?_drop, hdrop]
    rfl
  · rw [← List.tail_drop, hdrop]
    exact hrest.symm

/-- The cycle at the front ends, if its flush was reported successful. -/
theorem complete (h : s.Inv) {front : PendingPersist M} {rest : List (PendingPersist M)}
    (hpending : s.pending = front :: rest)
    (hreported : ∀ token ∈ front.token, .reported token (.ok ()) ∈ s.trace) : (s.complete front rest).Inv := by
  obtain ⟨cycle, hcycle, rfl, hrest⟩ := h.front hpending
  have hlt : s.completed < s.cycles.length := (List.getElem?_eq_some_iff.mp hcycle).1
  have hlanded : ∀ j ≤ s.completed, Landed s.cycles s.trace j := by
    intro j hj
    rcases Nat.lt_or_eq_of_le hj with hj | rfl
    · exact h.landed j hj
    · exact ⟨cycle, hcycle, hreported⟩
  have htrace : (s.complete cycle.pending rest).trace = s.trace ++ cycle.ending s.completed := rfl
  have htokens : (s.complete cycle.pending rest).tokens = s.tokens := by
    unfold ReadySys.tokens
    rw [htrace, List.filterMap_append]
    exact congrArg (· ++ _) (List.append_nil _)
  constructor
  case queue => exact hrest
  case completed_le => exact hlt
  case room =>
    have hroom := h.room
    rw [hpending] at hroom
    exact Nat.le_of_succ_le hroom
  case offloaded => exact h.offloaded
  case nodup =>
    rw [htokens]
    exact h.nodup
  case issued =>
    rw [htokens]
    exact h.issued
  case flushed => exact fun r hr => List.mem_append_left _ (h.flushed r hr)
  case landed => exact fun j hj => (hlanded j (Nat.le_of_lt_succ hj)).later _
  case founded =>
    have hsplit : s.trace ++ cycle.ending s.completed =
        s.trace ++ [.persisted s.completed cycle.ready.number] ++
          [.sent s.completed cycle.pending.immediate cycle.ready.persistedMessages] ++
          [.returned s.completed cycle.pending.outcome] := by
      rw [List.append_assoc, List.append_assoc]
      rfl
    rw [htrace, hsplit]
    refine justified_snoc (justified_snoc (justified_snoc h.founded ?_) ?_) ?_
    · exact hlanded
    · exact fun j hj => (hlanded j hj).later _
    · exact fun j hj => ((hlanded j hj).later _).later _
  case ended =>
    show (s.trace ++ cycle.ending s.completed).filter _ = ((s.cycles.take (s.completed + 1)).zipIdx).flatMap _
    rw [List.filter_append, h.ended, List.take_add_one, hcycle, List.zipIdx_append, List.flatMap_append,
      List.length_take, Nat.min_eq_left h.completed_le]
    refine congrArg (_ ++ ·) ?_
    show cycle.ending s.completed = cycle.ending (0 + s.completed) ++ []
    rw [Nat.zero_add, List.append_nil]

theorem finish (h : s.Inv) {next : Phase} (hfinishes : s.Finishes next s') : s'.Inv := by
  have hoffloaded : ∀ {front : PendingPersist M} {rest : List (PendingPersist M)} {token : Nat},
      s.pending = front :: rest → front.token = some token → s.offloaded = true := by
    intro front rest token hpending htoken
    obtain ⟨cycle, hcycle, rfl, -⟩ := h.front hpending
    exact h.offloaded cycle (List.mem_of_getElem? hcycle) (Option.isSome_of_eq_some htoken)
  cases hfinishes with
  | waits => exact { h with }
  | durable hpending htoken =>
      apply h.complete hpending
      rw [htoken]
      nofun
  | fails hpending htoken hpoll =>
      obtain ⟨r, store, hfind, hresult, rfl⟩ := of_poll (hoffloaded hpending htoken) hpoll
      rw [← hresult]
      exact (h.report hfind store).fail _
  | lands hpending htoken hpoll =>
      obtain ⟨r, store, hfind, hresult, rfl⟩ := of_poll (hoffloaded hpending htoken) hpoll
      rw [← hresult]
      apply (h.report hfind store).complete hpending
      intro token' htoken'
      cases htoken.symm.trans htoken'
      rw [← hresult]
      exact List.mem_append_right _ List.mem_cons_self

theorem submit (h : s.Inv) (hroom : s.pending.length < ReadySys.maxInFlightReadies) {ready : Ready M}
    (hsubmits : s.Submits ready s') : s'.Inv := by
  cases hsubmits with
  | refused hnext =>
      apply ReadySys.Inv.fail
      exact { h with issued := fun token htoken => Nat.lt_of_lt_of_le (h.issued token htoken) hnext }
  | written => exact h.enqueue_written hroom ready _
  | offloaded hoffloaded => exact h.enqueue_offloaded hroom hoffloaded ready _

end ReadySys.Inv

/-! ## After a failure -/

/-- A failure was reported, and `step` has not been called since. -/
def Halted (trace : List (Event M)) : Prop :=
  ∃ pre token e post, trace = pre ++ .reported token (.error e) :: post ∧ .stepped ∉ post

/-- Nothing leaves the node. -/
def Event.Quiet : Event M → Prop
  | .stepped | .flushed _ _ | .failed _ => True
  | _ => False

theorem halted_snoc {trace : List (Event M)} {e : Event M} (h : Halted (trace ++ [e])) :
    (∃ token error, e = .reported token (.error error)) ∨ (Halted trace ∧ e ≠ .stepped) := by
  obtain ⟨pre, token, error, post, heq, hpost⟩ := h
  rcases List.eq_nil_or_concat post with rfl | ⟨post, last, rfl⟩
  · obtain ⟨-, hlast⟩ := List.append_inj' heq rfl
    cases hlast
    exact .inl ⟨token, error, rfl⟩
  · rw [List.concat_eq_append, ← List.cons_append, ← List.append_assoc] at heq
    obtain ⟨rfl, hlast⟩ := List.append_inj' heq rfl
    cases hlast
    rw [List.concat_eq_append, List.mem_append, not_or] at hpost
    refine .inr ⟨⟨pre, token, error, post, rfl, hpost.1⟩, ?_⟩
    rintro rfl
    exact hpost.2 List.mem_cons_self

/-- While halted, nothing leaves. -/
abbrev QuietWhenHalted (trace : List (Event M)) : Prop := Justified (fun pre e => Halted pre → e.Quiet) trace

/-- No failure, or `step` was called after it. -/
structure Running (trace : List (Event M)) : Prop where
  not_halted : ¬ Halted trace
  quiet : QuietWhenHalted trace

theorem Running.emit {trace : List (Event M)} (h : Running trace) {e : Event M}
    (he : ∀ token error, e ≠ .reported token (.error error)) : Running (trace ++ [e]) := by
  refine ⟨?_, justified_snoc h.quiet fun hhalted => absurd hhalted h.not_halted⟩
  intro hhalted
  rcases halted_snoc hhalted with ⟨token, error, heq⟩ | ⟨hhalted, -⟩
  · exact he token error heq
  · exact h.not_halted hhalted

/-- Only between calls of `step` can the node be halted. -/
structure ReadySys.Halts (s : ReadySys M) : Prop where
  idle : Halted s.trace → s.phase = .idle
  quiet : QuietWhenHalted s.trace

namespace ReadySys.Halts

theorem of_running (h : Running s.trace) : s.Halts := ⟨fun hhalted => absurd hhalted h.not_halted, h.quiet⟩

theorem running (h : s.Halts) (hphase : s.phase ≠ .idle) : Running s.trace :=
  ⟨fun hhalted => hphase (h.idle hhalted), h.quiet⟩

theorem complete (h : Running s.trace) (front : PendingPersist M) (rest : List (PendingPersist M)) :
    (s.complete front rest).Halts := by
  have h₁ := h.emit (e := .persisted s.completed front.number) nofun
  have h₂ := h₁.emit (e := .sent s.completed front.immediate front.persisted) nofun
  have h₃ := h₂.emit (e := .returned s.completed front.outcome) nofun
  rw [List.append_assoc, List.append_assoc] at h₃
  exact of_running h₃

theorem trace_poll (s : ReadySys M) (token : Nat) : (s.poll token).1.trace = s.trace := by
  unfold ReadySys.poll
  split_ifs <;> rfl

theorem finish (h : Running s.trace) {next : Phase} (hfinishes : s.Finishes next s') : s'.Halts := by
  cases hfinishes with
  | waits => exact of_running h
  | durable hpending htoken => exact complete h _ _
  | @fails front rest token s₁ e error hpending htoken hpoll =>
      have htrace : s₁.trace = s.trace := by rw [← trace_poll s token, hpoll]
      refine ⟨fun _ => rfl, ?_⟩
      refine justified_snoc (justified_snoc ?_ ?_) fun _ => trivial
      · rw [htrace]
        exact h.quiet
      · intro hhalted
        rw [htrace] at hhalted
        exact absurd hhalted h.not_halted
  | @lands front rest token s₁ hpending htoken hpoll =>
      have htrace : s₁.trace = s.trace := by rw [← trace_poll s token, hpoll]
      apply complete
      rw [← htrace] at h
      exact h.emit nofun

theorem submit (h : Running s.trace) {ready : Ready M} (hsubmits : s.Submits ready s') : s'.Halts := by
  cases hsubmits with
  | refused => exact of_running (h.emit nofun)
  | written => exact of_running h
  | offloaded => exact of_running (h.emit nofun)

end ReadySys.Halts

theorem ReadySys.step_keeps (h : s.Inv) (hhalts : s.Halts) {a : ReadyAction M} (hexec : s.exec a = some s') :
    s'.Inv ∧ s'.Halts := by
  cases a with
  | step =>
      obtain ⟨-, hs'⟩ := Option.ite_none_right_eq_some.mp hexec
      cases hs'
      have hrunning : Running (s.emit .stepped).trace := by
        refine ⟨fun hhalted => ?_, justified_snoc hhalts.quiet fun _ => trivial⟩
        rcases halted_snoc hhalted with ⟨token, error, heq⟩ | ⟨-, hne⟩
        · cases heq
        · exact hne rfl
      have hfinishes := (s.emit .stepped).finishes .submitting
      exact ⟨(h.emit (e := .stepped) trivial rfl rfl).finish hfinishes, .finish hrunning hfinishes⟩
  | submit ready accepted =>
      obtain ⟨hphase, hs'⟩ := Option.ite_none_right_eq_some.mp hexec
      have hrunning := hhalts.running (by rw [hphase]; exact nofun)
      cases ready with
      | none =>
          cases hs'
          exact ⟨{ h with }, .of_running hrunning⟩
      | some ready =>
          have hs' : (if s.pending.length < ReadySys.maxInFlightReadies then some (s.submitReady ready accepted)
              else some { s with phase := .idle }) = some s' := hs'
          by_cases hroom : s.pending.length < ReadySys.maxInFlightReadies
          · rw [if_pos hroom] at hs'
            cases hs'
            have hsubmits := s.submits ready accepted
            exact ⟨h.submit hroom hsubmits, .submit hrunning hsubmits⟩
          · rw [if_neg hroom] at hs'
            cases hs'
            exact ⟨{ h with }, .of_running hrunning⟩
  | finish =>
      obtain ⟨hphase, hs'⟩ := Option.ite_none_right_eq_some.mp hexec
      cases hs'
      have hrunning := hhalts.running (by rw [hphase]; exact nofun)
      exact ⟨h.finish (s.finishes .idle), .finish hrunning (s.finishes .idle)⟩
  | flush result =>
      obtain ⟨hjob, hs'⟩ := Option.ite_none_right_eq_some.mp hexec
      cases hs'
      refine ⟨h.flush hjob, ?_, justified_snoc hhalts.quiet fun _ => trivial⟩
      intro hhalted
      rcases halted_snoc hhalted with ⟨token, error, heq⟩ | ⟨hhalted, -⟩
      · cases heq
      · exact hhalts.idle hhalted
  | snapshotMessage sender =>
      obtain ⟨-, hs'⟩ := Option.ite_none_right_eq_some.mp hexec
      cases hs'
      exact ⟨{ h with }, { hhalts with }⟩

/-! ## The result -/

section Result

variable {store : WalStorage} {offloaded streamsSnapshots : Bool} {actions : List (ReadyAction M)}

theorem inv_of_run (h : ReadyRun store offloaded streamsSnapshots actions s) : s.Inv ∧ s.Halts := by
  refine h.invariant (P := fun _ s => s.Inv ∧ s.Halts) ?_ ?_
  · rintro s rfl
    refine ⟨.start store offloaded streamsSnapshots, fun _ => rfl, justified_nil⟩
  · rintro _ s a s' - ⟨hinv, hhalts⟩ hexec
    exact ReadySys.step_keeps hinv hhalts hexec

theorem ReadySys.Inv.disclosed (h : s.Inv) :
    Justified (fun pre e => ∀ c, e.Discloses c → ∀ j ≤ c, Landed s.cycles pre j) s.trace := by
  refine h.founded.imp ?_
  intro pre e hfounded c hdiscloses
  cases e with
  | sent | returned =>
      cases hdiscloses
      exact hfounded
  | stepped | fastPath | flushed | reported | persisted | failed => exact hdiscloses.elim

/-- A flush that was reported failed is not reported successful, so what waits for it stays undisclosed. -/
theorem ReadySys.Inv.undisclosed (h : s.Inv) {j : Nat} {cycle : Cycle M} {token : Nat} {error : String}
    (hcycle : s.cycles[j]? = some cycle) (htoken : cycle.token = some token)
    (hfailed : .reported token (.error error) ∈ s.trace) {e : Event M} (he : e ∈ s.trace) {c : Nat} (hc : j ≤ c) :
    ¬ e.Discloses c := by
  intro hdiscloses
  obtain ⟨pre, post, htrace⟩ := List.append_of_mem he
  obtain ⟨cycle', hcycle', hreported⟩ := h.disclosed pre e post htrace c hdiscloses j hc
  cases hcycle.symm.trans hcycle'
  have hok : .reported token (.ok ()) ∈ s.trace := by
    rw [htrace]
    exact List.mem_append_left _ (hreported token htoken)
  cases Trace.eq_of_nodup_filterMap (List.nodup_append.mp h.nodup).1 hfailed hok rfl rfl

/-- **Durability before disclosure.** In every run: what depends on a cycle's records is sent or returned after the
flushes of the cycle and of those before it were reported successful, as the flusher told; the cycles end in the order
of submission, each once, with what they were submitted with, and the others are queued, eight at most; nothing of a
cycle whose flush was reported failed, or of a later one, is disclosed, and until `step` is called again nothing leaves
the node at all. What leaves with a submission are messages raft marked as not needing persistence. -/
theorem durability_before_disclosure (h : ReadyRun store offloaded streamsSnapshots actions s) :
    Justified (fun pre e => ∀ c, e.Discloses c → ∀ j ≤ c, Landed s.cycles pre j) s.trace ∧
    Justified (fun pre e => ∀ token result, e = .reported token result → .flushed token result ∈ pre) s.trace ∧
    s.trace.filter Event.finishes = ((s.cycles.take s.completed).zipIdx.flatMap fun x => x.1.ending x.2) ∧
    s.pending = (s.cycles.drop s.completed).map Cycle.pending ∧
    s.pending.length ≤ ReadySys.maxInFlightReadies ∧
    (∀ j cycle token error, s.cycles[j]? = some cycle → cycle.token = some token →
      .reported token (.error error) ∈ s.trace → ∀ e ∈ s.trace, ∀ c ≥ j, ¬ e.Discloses c) ∧
    Justified (fun pre e => Halted pre → e.Quiet) s.trace ∧
    ∀ c messages, .fastPath c messages ∈ s.trace →
      ∃ cycle, s.cycles[c]? = some cycle ∧ messages = cycle.ready.messages := by
  obtain ⟨hinv, hhalts⟩ := inv_of_run h
  refine ⟨hinv.disclosed, ?_, hinv.ended, hinv.queue, hinv.room, ?_, hhalts.quiet, ?_⟩
  · refine hinv.founded.imp ?_
    rintro pre e hfounded token result rfl
    exact hfounded
  · intro j cycle token error hcycle htoken hfailed e he c hc
    exact hinv.undisclosed hcycle htoken hfailed he hc
  · intro c messages hmem
    obtain ⟨pre, post, htrace⟩ := List.append_of_mem hmem
    exact hinv.founded pre _ post htrace

end Result

/-! ## Two runs -/

/-- Run a node over a fresh store with off-thread durability. -/
def runReady (actions : List (ReadyAction Nat)) : Option (WalStorage × ReadySys Nat) :=
  (Storage.runOps (Storage.sampleOptions 1000) (fun _ _ => True) []).bind fun store =>
    (actions.foldlM ReadySys.exec (.start store true false)).map (store, ·)

theorem run_of_runReady {actions : List (ReadyAction Nat)} {store : WalStorage} {s : ReadySys Nat}
    (h : runReady actions = some (store, s)) : ReadyRun store true false actions s := by
  unfold runReady at h
  obtain ⟨store', -, hfold⟩ := Option.bind_eq_some_iff.mp h
  obtain ⟨s', hs', heq⟩ := Option.map_eq_some_iff.mp hfold
  cases heq
  exact .of_foldlM (fun _ _ _ hexec => hexec) rfl hs'

def sampleReady (number : UInt64) (entries : List Storage.LogEntry) (messages persistedMessages : List Nat) : Ready Nat :=
  ⟨number, messages, persistedMessages, [], [], none, entries, none⟩

/-- A cycle that waits for its flush, and one behind it that wrote nothing. -/
def flushedThenIdle : List (ReadyAction Nat) :=
  [.step, .submit (some (sampleReady 1 [Storage.sampleEntry 1 1] [3] [4])) true, .finish,
    .step, .submit (some (sampleReady 2 [] [5] [6])) true, .finish,
    .flush ⟨0, 1, .ok (), true⟩, .step, .step]

theorem durability_before_disclosure_two : ∃ store s, ReadyRun store true false flushedThenIdle s ∧
    s.cycles.map (·.token) = [some 0, none] ∧ s.completed = 2 ∧
    Justified (fun pre e => ∀ c, e.Discloses c → ∀ j ≤ c, Landed s.cycles pre j) s.trace := by
  have heval : (runReady flushedThenIdle).any fun x => x.2.cycles.map (·.token) = [some 0, none] ∧ x.2.completed = 2 := by
    decide +kernel
  obtain ⟨⟨store, s⟩, hs, hfacts⟩ := (Option.any_eq_true _ _).mp heval
  obtain ⟨htokens, hcompleted⟩ := of_decide_eq_true hfacts
  have hrun := run_of_runReady hs
  exact ⟨store, s, hrun, htokens, hcompleted, (durability_before_disclosure hrun).1⟩

/-- A flush fails and is reported; then `step` is called again. -/
def failedThenStepped : List (ReadyAction Nat) :=
  [.step, .submit (some (sampleReady 1 [Storage.sampleEntry 1 1] [] [4])) true, .finish,
    .flush ⟨0, 1, Storage.Batch.result true, true⟩, .step,
    .step, .submit (some (sampleReady 2 [Storage.sampleEntry 2 1] [5] [6])) true]

/-- The failed job is gone with its report, so `step` takes the cycle to be still in the air, and submits the next one:
the messages of that cycle which need no persistence leave. -/
theorem fast_path_after_failure : ∃ store s, ReadyRun store true false failedThenStepped s ∧
    s.cycles.map (·.token) = [some 0, some 1] ∧
    ∃ pre post, s.trace = pre ++ .reported 0 (Storage.Batch.result true) :: post ∧ .fastPath 1 [5] ∈ post := by
  have heval : (runReady failedThenStepped).any fun x => x.2.cycles.map (·.token) = [some 0, some 1] ∧
      x.2.trace[4]? = some (.reported 0 (Storage.Batch.result true)) ∧ .fastPath 1 [5] ∈ x.2.trace.drop 5 := by
    decide +kernel
  obtain ⟨⟨store, s⟩, hs, hfacts⟩ := (Option.any_eq_true _ _).mp heval
  obtain ⟨htokens, hreported, hfast⟩ := of_decide_eq_true hfacts
  refine ⟨store, s, run_of_runReady hs, htokens, s.trace.take 4, s.trace.drop 5, ?_, hfast⟩
  obtain ⟨hlt, heq⟩ := List.getElem?_eq_some_iff.mp hreported
  rw [← heq, List.getElem_cons_drop, List.take_append_drop]

end Arachne.Consensus
