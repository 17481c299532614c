import Arachne.Runtime.WatchDelivery

/-! # Watch streams without gaps

The batches that were dropped are summarised by one watermark, the lowest index among them. A watcher that was
registered between two drops is above the watermark and misses the second drop all the same: the actor keeps it
(`watch_gap_between_drops`). If no drop is noted while another one is pending that such a watcher needs, then a
watcher that is still connected has everything (`watch_no_silent_gap`). -/

namespace Arachne.Runtime.Watch

open Codec (Bytes)
open StateMachine (Store WatchEvent)

/-- No snapshot is installed. -/
def NoInstall : WatchAction → Prop
  | .restore _ => False
  | _ => True

/-- When a dropped batch is noted, the watermark keeps no watcher that wants an event of it, and its index can be told
from the mark for none. -/
def Noted (s : WatchSys) : WatchAction → Prop
  | .note => ∀ batch ∈ s.refused, batch.1 ≠ maxU64 ∧
      (s.backlogDropped ≠ maxU64 →
        ∀ w ∈ s.watchers, s.backlogDropped ≤ w.filter → ∀ ev ∈ batch.2, w.wants ev = false)
  | _ => True

/-! ## The order of the batches -/

def Dispatch.batch : Dispatch → List (UInt64 × List WatchEvent)
  | .received index events => [(index, events)]
  | _ => []

/-- The batches that are not dispatched, in order. -/
def WatchSys.batches (s : WatchSys) : List (UInt64 × List WatchEvent) :=
  s.dispatch.batch ++ s.channel ++ s.inHand.toList ++ s.refused.toList

structure WatchSys.Queues (s : WatchSys) : Prop where
  pairwise : s.batches.Pairwise (·.1 < ·.1)
  above : ∀ batch ∈ s.batches, s.last < batch.1
  applied : ∀ batch ∈ s.batches, batch.1 ≤ s.sm.applied
  lastApplied : s.last ≤ s.sm.applied
  indexed : ∀ batch ∈ s.batches, ∀ ev ∈ batch.2, ev.index = batch.1
  sending : ∀ events, s.dispatch = .sending events → ∀ ev ∈ events, ev.index = s.last
  done : ∀ ev ∈ s.done, ev.index ≤ s.last

theorem queues_start (sm : Store) : (WatchSys.start sm).Queues where
  pairwise := .nil
  above := nofun
  applied := nofun
  lastApplied := UInt64.zero_le
  indexed := nofun
  sending := nofun
  done := nofun

section Queues

variable {capacity : Nat} {s s' : WatchSys} {a : WatchAction}

/-- Batches may move on and get lost. -/
theorem WatchSys.Queues.of_sublist (hinv : s.Queues) (hbatches : s'.batches.Sublist s.batches) (hsm : s'.sm = s.sm)
    (hlast : s'.last = s.last) (hdone : s'.done = s.done)
    (hsending : ∀ events, s'.dispatch = .sending events → s.dispatch = .sending events) : s'.Queues where
  pairwise := hinv.pairwise.sublist hbatches
  above := by
    intro batch hbatch
    rw [hlast]
    exact hinv.above batch (hbatches.subset hbatch)
  applied := by
    intro batch hbatch
    rw [hsm]
    exact hinv.applied batch (hbatches.subset hbatch)
  lastApplied := by
    rw [hlast, hsm]
    exact hinv.lastApplied
  indexed := fun batch hbatch => hinv.indexed batch (hbatches.subset hbatch)
  sending := by
    intro events h
    rw [hlast]
    exact hinv.sending events (hsending events h)
  done := by
    rw [hlast, hdone]
    exact hinv.done

theorem WatchSys.Queues.apply {index : UInt64} {command : Bytes} {applied : StateMachine.Applied} {sm : Store}
    (hinv : s.Queues) (hnext : index.toNat = s.sm.applied.toNat + 1) (hhand : s.inHand = none)
    (hrefused : s.refused = none) (h : s.sm.apply index command = (.ok applied, sm)) :
    WatchSys.Queues
      { s with sm, inHand := batchOf index applied.events, history := s.history ++ applied.events } := by
  obtain ⟨hbatch, -⟩ := Store.values_apply h
  have happlied : sm.applied = index := Store.applied_of_apply h
  have hle : ∀ {i : UInt64}, i ≤ s.sm.applied → i < index := lt_next hnext
  have hold : s.batches = s.dispatch.batch ++ s.channel := by
    unfold WatchSys.batches
    rw [hhand, hrefused]
    simp only [Option.toList_none, List.append_nil]
  have hnew : ∀ batch ∈ s.batches ++ (batchOf index applied.events).toList,
      batch ∈ s.batches ∨ batch = (index, applied.events) := by
    intro batch hbatch
    rcases List.mem_append.mp hbatch with hbatch | hbatch
    · exact .inl hbatch
    · exact .inr (of_batchOf (Option.mem_toList.mp hbatch))
  have heq : WatchSys.batches
      { s with sm, inHand := batchOf index applied.events, history := s.history ++ applied.events } =
      s.batches ++ (batchOf index applied.events).toList := by
    rw [hold]
    unfold WatchSys.batches
    simp only [hrefused, Option.toList_none, List.append_nil]
  constructor
  case pairwise =>
    rw [heq]
    refine List.pairwise_append.mpr ⟨hinv.pairwise, ?_, ?_⟩
    · unfold batchOf
      split_ifs
      · exact .nil
      · exact List.pairwise_singleton _ _
    · intro old hmem batch hmem'
      rw [of_batchOf (Option.mem_toList.mp hmem')]
      exact hle (hinv.applied old hmem)
  case above =>
    rw [heq]
    intro batch hmem
    rcases hnew batch hmem with hmem | rfl
    · exact hinv.above batch hmem
    · exact hle hinv.lastApplied
  case applied =>
    rw [heq]
    intro batch hmem
    show batch.1 ≤ sm.applied
    rw [happlied]
    rcases hnew batch hmem with hmem | rfl
    · exact UInt64.le_of_lt (hle (hinv.applied batch hmem))
    · exact UInt64.le_refl _
  case lastApplied =>
    show s.last ≤ sm.applied
    rw [happlied]
    exact UInt64.le_of_lt (hle hinv.lastApplied)
  case indexed =>
    rw [heq]
    intro batch hmem
    rcases hnew batch hmem with hmem | rfl
    · exact hinv.indexed batch hmem
    · exact hbatch.index
  case sending => exact hinv.sending
  case done => exact hinv.done

theorem WatchSys.Queues.drain {index : UInt64} {events : List WatchEvent} (hinv : s.Queues)
    (h : s.dispatch = .received index events) : (s.drain index events).Queues := by
  have hcons : s.batches = (index, events) :: (s.drain index events).batches := by
    unfold WatchSys.batches
    rw [h]
    rfl
  have hpairwise := hinv.pairwise
  rw [hcons, List.pairwise_cons] at hpairwise
  have hhead : (index, events) ∈ s.batches := by
    rw [hcons]
    exact List.mem_cons_self
  have htail : ∀ batch ∈ (s.drain index events).batches, batch ∈ s.batches := by
    intro batch hbatch
    rw [hcons]
    exact List.mem_cons_of_mem _ hbatch
  constructor
  case pairwise => exact hpairwise.2
  case above => exact hpairwise.1
  case applied => exact fun batch hbatch => hinv.applied batch (htail batch hbatch)
  case lastApplied => exact hinv.applied _ hhead
  case indexed => exact fun batch hbatch => hinv.indexed batch (htail batch hbatch)
  case sending =>
    intro events' heq
    cases heq
    exact hinv.indexed _ hhead
  case done =>
    intro ev hev
    exact UInt64.le_trans (hinv.done ev hev) (UInt64.le_of_lt (hinv.above _ hhead))

theorem WatchSys.Queues.offer {ev : WatchEvent} {rest : List WatchEvent} (hinv : s.Queues)
    (h : s.dispatch = .sending (ev :: rest)) : (s.offer ev rest).Queues := by
  have hindex := hinv.sending _ h
  have heq : (s.offer ev rest).batches = s.batches := by
    unfold WatchSys.batches
    rw [h]
    rfl
  constructor
  case pairwise => exact heq ▸ hinv.pairwise
  case above => exact heq ▸ hinv.above
  case applied => exact heq ▸ hinv.applied
  case lastApplied => exact hinv.lastApplied
  case indexed => exact heq ▸ hinv.indexed
  case sending =>
    intro events hevents
    cases hevents
    exact fun ev' hev' => hindex ev' (List.mem_cons_of_mem _ hev')
  case done =>
    intro ev' hev'
    rcases List.mem_append.mp hev' with hev' | hev'
    · exact hinv.done ev' hev'
    · rw [List.mem_singleton.mp hev']
      exact UInt64.le_of_eq (hindex ev List.mem_cons_self)

theorem WatchSys.Queues.step (hinv : s.Queues) (horder : InOrder s a) (hinstall : NoInstall a)
    (h : s.Moves capacity a s') : s'.Queues := by
  cases h with
  | apply hhand hrefused h => exact hinv.apply horder hhand hrefused h
  | restore => exact hinstall.elim
  | @send batch h hroom =>
      refine hinv.of_sublist ?_ rfl rfl rfl fun _ => id
      unfold WatchSys.batches
      rw [h]
      simp only [Option.toList_some, Option.toList_none, List.append_nil, List.append_assoc]
      exact List.Sublist.refl _
  | @refuse batch h hfull =>
      refine hinv.of_sublist ?_ rfl rfl rfl fun _ => id
      unfold WatchSys.batches
      rw [h]
      simp only [Option.toList_some, Option.toList_none, List.append_nil]
      exact List.sublist_append_left _ _
  | note h =>
      refine hinv.of_sublist ?_ rfl rfl rfl fun _ => id
      unfold WatchSys.batches
      exact (List.nil_sublist _).append_left _
  | @register start upper limit h =>
      obtain ⟨watchers, heq, -⟩ := s.register_eq start upper limit
      rw [heq]
      exact hinv.of_sublist (List.Sublist.refl _) rfl rfl rfl fun _ => id
  | receive h hchannel =>
      refine hinv.of_sublist ?_ rfl rfl rfl nofun
      unfold WatchSys.batches
      rw [h, hchannel]
      exact List.Sublist.refl _
  | drain h => exact hinv.drain h
  | offer h => exact hinv.offer h
  | finish h =>
      refine hinv.of_sublist ?_ rfl rfl rfl nofun
      unfold WatchSys.batches
      rw [h]
      exact List.Sublist.refl _
  | take | leave => exact hinv.of_sublist (List.Sublist.refl _) rfl rfl rfl fun _ => id

end Queues

/-! ## The batches that were dropped -/

/-- The watcher wants no event of the entry. -/
def WatchSys.Unwanted (s : WatchSys) (w : Watcher) (i : UInt64) : Prop :=
  ∀ ev ∈ s.history, ev.index = i → w.wants ev = false

/-- The watcher is going to be disconnected for the dropped batch, or the batch is about to be noted. -/
def WatchSys.Pending (s : WatchSys) (w : Watcher) (i : UInt64) : Prop :=
  s.last < i ∧ ((s.backlogDropped ≠ maxU64 ∧ w.filter < s.backlogDropped) ∨ ∃ batch ∈ s.refused, batch.1 = i)

structure WatchSys.Accounted (s : WatchSys) : Prop where
  refused : ∀ batch ∈ s.refused, batch.1 ∈ s.missed
  dropped : s.backlogDropped ≠ maxU64 → s.backlogDropped ∈ s.missed
  lost : ∀ w ∈ s.watchers, ∀ i ∈ s.missed, s.Unwanted w i ∨ s.Pending w i

theorem accounted_start (sm : Store) : (WatchSys.start sm).Accounted := ⟨nofun, fun h => absurd rfl h, nofun⟩

section Accounted

variable {capacity : Nat} {s s' : WatchSys} {a : WatchAction}

theorem Watcher.filter_lt {w : Watcher} {ev : WatchEvent} (h : w.wants ev = true) : w.filter < ev.index :=
  of_decide_eq_true (Bool.and_eq_true_iff.mp h).1

theorem WatchSys.Unwanted.of_continues {w w' : Watcher} {i : UInt64} (h : s.Unwanted w i) (hw : w.Continues w')
    (hhistory : s'.history = s.history) : s'.Unwanted w' i := by
  intro ev hev
  rw [hw.wants]
  rw [hhistory] at hev
  exact h ev hev

/-- A fresh watcher wants nothing of what was dropped before. -/
theorem WatchSys.Registered.unwanted {w : Watcher} (h : s.Registered w) (hdelivered : s.Delivered)
    (hhistory : s'.history = s.history) (i : UInt64) : s'.Unwanted w i := by
  intro ev hev _
  rw [hhistory] at hev
  exact Bool.eq_false_iff.mpr (h.not_wants (hdelivered.applied ev hev))

/-- Steps that neither emit nor drop, and leave the watermark. -/
theorem WatchSys.Accounted.frame (hinv : s.Accounted) (hdelivered : s.Delivered) (h : s.Moves capacity a s')
    (hhistory : s'.history = s.history) (hmissed : s'.missed = s.missed) (hlast : s'.last = s.last)
    (hdropped : s'.backlogDropped = s.backlogDropped) (hrefused : s'.refused = s.refused) : s'.Accounted := by
  refine ⟨?_, ?_, ?_⟩
  · rw [hrefused, hmissed]
    exact hinv.refused
  · rw [hdropped, hmissed]
    exact hinv.dropped
  · intro w' hw' i hi
    rw [hmissed] at hi
    rcases h.watcher hw' with ⟨w, hw, hcontinues, -⟩ | ⟨hregistered, -⟩
    · refine (hinv.lost w hw i hi).imp ?_ ?_
      · exact fun hunwanted => hunwanted.of_continues hcontinues hhistory
      · unfold WatchSys.Pending
        rw [hlast, hdropped, hrefused, hcontinues.filter]
        exact id
    · exact .inl (hregistered.unwanted hdelivered hhistory i)

theorem WatchSys.Accounted.apply {index : UInt64} {command : Bytes} {applied : StateMachine.Applied} {sm : Store}
    (hinv : s.Accounted) (hdelivered : s.Delivered) (hnext : index.toNat = s.sm.applied.toNat + 1)
    (h : s.sm.apply index command = (.ok applied, sm)) :
    WatchSys.Accounted
      { s with sm, inHand := batchOf index applied.events, history := s.history ++ applied.events } := by
  obtain ⟨hbatch, -⟩ := Store.values_apply h
  refine ⟨hinv.refused, hinv.dropped, ?_⟩
  intro w hw i hi
  refine (hinv.lost w hw i hi).imp ?_ id
  intro hunwanted ev hev hindex
  rcases List.mem_append.mp hev with hev | hev
  · exact hunwanted ev hev hindex
  · have hlt : i < index := lt_next hnext (hdelivered.missedApplied i hi)
    rw [← hindex, hbatch.index ev hev] at hlt
    exact absurd hlt (UInt64.lt_irrefl _)

theorem WatchSys.Accounted.refuse {batch : UInt64 × List WatchEvent} (hinv : s.Accounted) (hdelivered : s.Delivered)
    (hqueues : s.Queues) (h : s.inHand = some batch) :
    WatchSys.Accounted { s with inHand := none, refused := some batch, missed := s.missed ++ [batch.1] } := by
  obtain ⟨happlied, -⟩ := hdelivered.held batch (.inl h)
  have hlast : s.last < batch.1 := by
    apply hqueues.above
    unfold WatchSys.batches
    rw [h]
    exact List.mem_append_left _ (List.mem_append_right _ List.mem_cons_self)
  refine ⟨?_, ?_, ?_⟩
  · intro batch' hbatch'
    cases hbatch'
    exact List.mem_append_right _ List.mem_cons_self
  · exact fun hdropped => List.mem_append_left _ (hinv.dropped hdropped)
  · intro w hw i hi
    rcases List.mem_append.mp hi with hi | hi
    · refine (hinv.lost w hw i hi).imp id ?_
      rintro ⟨hlt, hdropped | ⟨batch', hbatch', hindex⟩⟩
      · exact ⟨hlt, .inl hdropped⟩
      · -- The apply task holds one entry at a time.
        refine ⟨hlt, .inr ⟨batch, rfl, ?_⟩⟩
        rw [happlied, ← (hdelivered.held batch' (.inr hbatch')).1, hindex]
    · rw [List.mem_singleton.mp hi]
      exact .inr ⟨hlast, .inr ⟨batch, rfl, rfl⟩⟩

theorem WatchSys.Accounted.note {batch : UInt64 × List WatchEvent} (hinv : s.Accounted) (hdelivered : s.Delivered)
    (hnoted : Noted s .note) (h : s.refused = some batch) :
    WatchSys.Accounted { s with refused := none, backlogDropped := min s.backlogDropped batch.1 } := by
  obtain ⟨happlied, -, hall⟩ := hdelivered.held batch (.inr h)
  obtain ⟨hmax, hcond⟩ := hnoted batch h
  have hmissed := hinv.refused batch h
  by_cases hdropped : s.backlogDropped = maxU64
  · -- The first drop since the watermark was drained.
    have hmin : min s.backlogDropped batch.1 = batch.1 := by
      rw [hdropped]
      exact if_neg fun hle => hmax (UInt64.le_antisymm (le_maxU64 batch.1) hle)
    rw [hmin]
    refine ⟨nofun, fun _ => hmissed, ?_⟩
    intro w hw i hi
    by_cases hunwanted : s.Unwanted w i
    · exact .inl hunwanted
    · obtain ⟨hlt, ⟨hne, -⟩ | ⟨batch', hbatch', rfl⟩⟩ := (hinv.lost w hw i hi).resolve_left hunwanted
      · exact absurd hdropped hne
      · obtain rfl : batch = batch' := Option.some.inj (h.symm.trans hbatch')
        obtain ⟨ev, hev⟩ := not_forall.mp hunwanted
        obtain ⟨hmem, hev⟩ := Classical.not_imp.mp hev
        obtain ⟨hindex, hwants⟩ := Classical.not_imp.mp hev
        refine .inr ⟨hlt, .inl ⟨hmax, ?_⟩⟩
        show w.filter < batch.1
        rw [← hindex]
        exact w.filter_lt (Bool.not_eq_false _ ▸ hwants)
  · have hle : s.backlogDropped ≤ batch.1 := happlied ▸ hdelivered.missedApplied _ (hinv.dropped hdropped)
    rw [show min s.backlogDropped batch.1 = s.backlogDropped from if_pos hle]
    refine ⟨nofun, hinv.dropped, ?_⟩
    intro w hw i hi
    refine (hinv.lost w hw i hi).elim .inl ?_
    rintro ⟨hlt, hpending | ⟨batch', hbatch', rfl⟩⟩
    · exact .inr ⟨hlt, .inl hpending⟩
    · obtain rfl : batch = batch' := Option.some.inj (h.symm.trans hbatch')
      by_cases hfilter : s.backlogDropped ≤ w.filter
      · exact .inl fun ev hev hindex => hcond hdropped w hw hfilter ev (hall ev hev hindex)
      · exact .inr ⟨hlt, .inl ⟨hdropped, UInt64.not_le.mp hfilter⟩⟩

theorem WatchSys.Accounted.drain {index : UInt64} {events : List WatchEvent} (hinv : s.Accounted)
    (hqueues' : (s.drain index events).Queues) : (s.drain index events).Accounted := by
  refine ⟨hinv.refused, fun h => absurd rfl h, ?_⟩
  intro w hw' i hi
  obtain ⟨hw, hkept⟩ := WatchSys.mem_drain hw'
  refine (hinv.lost w hw i hi).imp id ?_
  rintro ⟨-, ⟨hne, hlt⟩ | ⟨batch, hbatch, rfl⟩⟩
  · exact absurd hlt (UInt64.not_lt.mpr (hkept hne))
  · refine ⟨?_, .inr ⟨batch, hbatch, rfl⟩⟩
    apply hqueues'.above
    exact List.mem_append_right _ (Option.mem_toList.mpr hbatch)

theorem WatchSys.Accounted.step (hinv : s.Accounted) (hdelivered : s.Delivered) (hqueues : s.Queues)
    (hqueues' : s'.Queues) (horder : InOrder s a) (hinstall : NoInstall a) (hnoted : Noted s a)
    (h : s.Moves capacity a s') : s'.Accounted := by
  have hframe := hinv.frame hdelivered h
  cases h with
  | apply hhand hrefused h => exact hinv.apply hdelivered horder h
  | restore => exact hinstall.elim
  | refuse h hfull => exact hinv.refuse hdelivered hqueues h
  | note h => exact hinv.note hdelivered hnoted h
  | drain h => exact hinv.drain hqueues'
  | @register start upper limit h =>
      obtain ⟨watchers, heq, -⟩ := s.register_eq start upper limit
      rw [heq] at hframe ⊢
      exact hframe rfl rfl rfl rfl rfl
  | send | receive | offer | finish | take | leave => exact hframe rfl rfl rfl rfl rfl

end Accounted

/-! ## What a watcher has -/

section Result

variable {capacity : Nat} {s : WatchSys} {sm : Store} {actions : List WatchAction}

theorem accounted_of_run (h : WatchRun capacity (fun s a => NoInstall a ∧ Noted s a) sm actions s) :
    s.Delivered ∧ s.Queues ∧ s.Accounted := by
  refine ⟨delivered_of_run h, h.invariant (P := fun _ s => s.Queues ∧ s.Accounted) ?_ ?_⟩
  · rintro s rfl
    exact ⟨queues_start sm, accounted_start sm⟩
  · rintro _ s a s' hrun ⟨hqueues, haccounted⟩ ⟨horder, ⟨hinstall, hnoted⟩, hexec⟩
    have hmoves := WatchSys.moves_of_exec hexec
    have hqueues' := hqueues.step horder hinstall hmoves
    exact ⟨hqueues', haccounted.step (delivered_of_run hrun) hqueues hqueues' horder hinstall hnoted hmoves⟩

/-- Between dispatches, what is on its way is above the last dispatched batch. -/
theorem WatchSys.Queues.last_lt_queued (hqueues : s.Queues) (hidle : s.dispatch = .idle) {ev : WatchEvent}
    (hev : ev ∈ s.queued) : s.last < ev.index := by
  have hbatch : ∃ batch ∈ s.batches, ev ∈ batch.2 := by
    unfold WatchSys.queued at hev
    rw [hidle] at hev
    rcases List.mem_append.mp hev with hev | hev
    · obtain ⟨batch, hbatch, hev⟩ := List.mem_flatMap.mp hev
      exact ⟨batch, List.mem_append_left _ (List.mem_append_left _ (List.mem_append_right _ hbatch)), hev⟩
    · obtain ⟨batch, hbatch, hev⟩ := List.mem_flatMap.mp hev
      exact ⟨batch, List.mem_append_left _ (List.mem_append_right _ hbatch), hev⟩
  obtain ⟨batch, hbatch, hev⟩ := hbatch
  rw [hqueues.indexed batch hbatch ev hev]
  exact hqueues.above batch hbatch

/-- What the actor is done with is what was emitted up to the last dispatched batch, without what was dropped. -/
theorem WatchSys.Delivered.done_eq (hdelivered : s.Delivered) (hqueues : s.Queues) (hidle : s.dispatch = .idle) :
    s.done = s.history.filter fun ev => decide (ev.index ≤ s.last) && decide (ev.index ∉ s.missed) := by
  have hdone : s.done.filter (fun ev => decide (ev.index ≤ s.last)) = s.done :=
    List.filter_eq_self.mpr fun ev hev => decide_eq_true (hqueues.done ev hev)
  have hqueued : s.queued.filter (fun ev => decide (ev.index ≤ s.last)) = [] := by
    refine List.filter_eq_nil_iff.mpr ?_
    intro ev hev hle
    exact UInt64.not_lt.mpr (of_decide_eq_true hle) (hqueues.last_lt_queued hidle hev)
  rw [← List.filter_filter, hdelivered.split, List.filter_append, hdone, hqueued, List.append_nil]

/-- **No silent gap.** If every noted drop is attributed, then between dispatches a watcher that is connected was sent
the events it wants up to the last dispatched batch, all of them, in log order and once. -/
theorem watch_no_silent_gap (h : WatchRun capacity (fun s a => NoInstall a ∧ Noted s a) sm actions s)
    (hidle : s.dispatch = .idle) :
    ∀ w ∈ s.watchers,
      w.sent = s.history.filter (fun ev => w.wants ev && decide (ev.index ≤ s.last)) ∧ w.sent.Pairwise Later := by
  obtain ⟨hdelivered, hqueues, haccounted⟩ := accounted_of_run h
  intro w hw
  have hsent : w.sent = s.history.filter fun ev => w.wants ev && decide (ev.index ≤ s.last) := by
    rw [hdelivered.sent w hw, hdelivered.done_eq hqueues hidle, List.filter_filter]
    refine List.filter_congr ?_
    intro ev hev
    by_cases hwants : w.wants ev = true ∧ ev.index ≤ s.last
    · have hnot : ev.index ∉ s.missed := by
        intro hmem
        rcases haccounted.lost w hw _ hmem with hunwanted | ⟨hlt, -⟩
        · exact Bool.false_ne_true ((hunwanted ev hev rfl).symm.trans hwants.1)
        · exact UInt64.not_lt.mpr hwants.2 hlt
      rw [hwants.1, decide_eq_true hwants.2, decide_eq_true hnot]
      rfl
    · rw [not_and_or] at hwants
      rcases hwants with hwants | hwants
      · rw [Bool.eq_false_iff.mpr hwants, Bool.false_and, Bool.false_and]
      · rw [decide_eq_false hwants, Bool.false_and, Bool.and_false]
  refine ⟨hsent, ?_⟩
  rw [hsent]
  exact hdelivered.sorted.filter _

end Result

instance (a : WatchAction) : Decidable (NoInstall a) :=
  match a with
  | .restore _ => isFalse id
  | .apply _ _ | .send | .note | .register _ _ _ | .receive | .drain | .offer | .finish | .take _ | .leave _ =>
    isTrue trivial

instance (s : WatchSys) (a : WatchAction) : Decidable (Noted s a) :=
  match a with
  | .note => inferInstanceAs (Decidable (∀ batch ∈ s.refused, _))
  | .restore _ | .apply _ _ | .send | .register _ _ _ | .receive | .drain | .offer | .finish | .take _ | .leave _ =>
    isTrue trivial

/-- The `i`-th write, to the key 1. -/
def writeOne (i : UInt64) : WatchAction := .apply i (StateMachine.encodePut ⟨1, i⟩ [1] [])

def dispatchOne : List WatchAction := [.receive, .drain, .offer, .finish]

def watchOne : WatchAction := .register [1] [2] 10

/-- A drop, a registration, a second drop; then everything is dispatched, and a last entry too. -/
def betweenDrops (capacity : Nat) : List WatchAction :=
  ((List.range capacity).flatMap fun i => [writeOne (UInt64.ofNat (i + 1)), .send]) ++
    [writeOne (UInt64.ofNat (capacity + 1)), .send, .note, watchOne,
      writeOne (UInt64.ofNat (capacity + 2)), .send, .note] ++
    (List.range capacity).flatMap (fun _ => dispatchOne) ++
    [writeOne (UInt64.ofNat (capacity + 3)), .send] ++ dispatchOne

/-- With the event channel of the source, the watcher registered at 257 is connected after 259 was dispatched, and
was not sent the event of 258. -/
theorem watch_gap_between_drops :
    ∃ s, WatchRun 256 (fun _ a => NoInstall a) .new (betweenDrops 256) s ∧ s.dispatch = .idle ∧
      ∃ w ∈ s.watchers, ∃ ev ∈ s.history, w.wants ev = true ∧ ev.index ≤ s.last ∧ ev ∉ w.sent := by
  have heval : ((betweenDrops 256).foldlM (WatchSys.execAllowed 256 fun _ a => NoInstall a) (.start .new)).any (fun s =>
      s.dispatch = .idle ∧
        ∃ w ∈ s.watchers, ∃ ev ∈ s.history, w.wants ev = true ∧ ev.index ≤ s.last ∧ ev ∉ w.sent) := by
    decide +kernel
  obtain ⟨s, hs, hfacts⟩ := (Option.any_eq_true _ _).mp heval
  exact ⟨s, run_of_execAllowed hs, of_decide_eq_true hfacts⟩

/-- Two watchers around one drop. -/
def aroundDrop : List WatchAction :=
  [watchOne, writeOne 1, .send, writeOne 2, .send, .note, watchOne] ++ dispatchOne ++ [writeOne 3, .send] ++ dispatchOne

/-- The watcher from before the drop is disconnected, the one from after it has everything. -/
theorem watch_no_silent_gap_around_drop :
    ∃ s, WatchRun 1 (fun s a => NoInstall a ∧ Noted s a) .new aroundDrop s ∧ s.missed = [2] ∧
      s.watchers.map (fun w => (w.filter, w.sent.map (·.index))) = [(2, [3])] ∧
      ∀ w ∈ s.watchers,
        w.sent = s.history.filter (fun ev => w.wants ev && decide (ev.index ≤ s.last)) ∧ w.sent.Pairwise Later := by
  have heval : (aroundDrop.foldlM (WatchSys.execAllowed 1 fun s a => NoInstall a ∧ Noted s a) (.start .new)).any (fun s =>
      s.dispatch = .idle ∧ s.missed = [2] ∧
        s.watchers.map (fun w => (w.filter, w.sent.map (·.index))) = [(2, [3])]) := by
    decide +kernel
  obtain ⟨s, hs, hfacts⟩ := (Option.any_eq_true _ _).mp heval
  obtain ⟨hidle, hmissed, hwatchers⟩ := of_decide_eq_true hfacts
  have hrun := run_of_execAllowed hs
  exact ⟨s, hrun, hmissed, hwatchers, watch_no_silent_gap hrun hidle⟩

end Arachne.Runtime.Watch
