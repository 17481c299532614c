import Arachne.Runtime.Watch

/-! # Delivery to watchers

What the apply task emits and does not drop is on its way to the watchers in order: it has been offered to them, or
is in the actor's hands, the channel or the task's hands (`Delivered`). This holds in every run, whatever is dropped
and whatever is restored. -/

namespace Arachne.Runtime.Watch

open Codec (Bytes)
open StateMachine (Store KvMap WatchEvent Batch)

/-! ## The watchers across a step -/

/-- The same subscription, later. -/
structure Watcher.Continues (w w' : Watcher) : Prop where
  start : w'.start = w.start
  upper : w'.upper = w.upper
  filter : w'.filter = w.filter
  snapshot : w'.snapshot = w.snapshot

theorem Watcher.Continues.refl (w : Watcher) : w.Continues w := ⟨rfl, rfl, rfl, rfl⟩

theorem Watcher.Continues.covers {w w' : Watcher} (h : w.Continues w') : w'.covers = w.covers := by
  funext key
  unfold Watcher.covers
  rw [h.start, h.upper]

theorem Watcher.Continues.wants {w w' : Watcher} (h : w.Continues w') : w'.wants = w.wants := by
  funext ev
  unfold Watcher.wants
  rw [h.filter, h.covers]

theorem Watcher.of_offer {w w' : Watcher} {ev : WatchEvent} (h : w.offer ev = some w') :
    w.Continues w' ∧ w'.sent = w.sent ++ [ev].filter w.wants := by
  unfold Watcher.offer at h
  by_cases hwants : w.wants ev = true
  · rw [if_pos hwants] at h
    split_ifs at h
    cases h
    refine ⟨⟨rfl, rfl, rfl, rfl⟩, ?_⟩
    rw [List.filter_cons_of_pos hwants, List.filter_nil]
  · rw [if_neg hwants] at h
    cases h
    refine ⟨.refl w, ?_⟩
    rw [List.filter_cons_of_neg hwants, List.filter_nil, List.append_nil]

/-- A fresh registration in state `s`. -/
structure WatchSys.Registered (s : WatchSys) (w : Watcher) : Prop where
  filter : w.filter = s.sm.applied
  sent : w.sent = []
  snapshot : ∃ limit, (w.snapshot, false) = getRange s.sm.kv w.start w.upper limit

/-- Registering changes the watchers only, and adds one at most. -/
theorem WatchSys.register_eq (s : WatchSys) (start upper : Bytes) (limit : Nat) :
    ∃ watchers, s.register start upper limit = { s with watchers } ∧
      ∀ w ∈ watchers, w ∈ s.watchers ∨ s.Registered w := by
  unfold WatchSys.register
  cases hrange : getRange s.sm.kv start upper limit with
  | mk entries truncated =>
      cases truncated with
      | true => exact ⟨s.watchers, rfl, fun w hw => .inl hw⟩
      | false =>
          refine ⟨_, rfl, ?_⟩
          intro w hw
          rcases List.mem_append.mp hw with hw | hw
          · exact .inl hw
          · cases List.mem_singleton.mp hw
            exact .inr ⟨rfl, rfl, limit, hrange.symm⟩

/-- Draining leaves the watchers that are not below the watermark. -/
theorem WatchSys.mem_drain {s : WatchSys} {index : UInt64} {events : List WatchEvent} {w : Watcher}
    (h : w ∈ (s.drain index events).watchers) :
    w ∈ s.watchers ∧ (s.backlogDropped ≠ maxU64 → s.backlogDropped ≤ w.filter) := by
  simp only [WatchSys.drain] at h
  split_ifs at h with hdropped
  · obtain ⟨hw, hle⟩ := List.mem_filter.mp h
    exact ⟨hw, fun _ => of_decide_eq_true hle⟩
  · exact ⟨h, fun hne => absurd hne hdropped⟩

/-- A watcher after a step was there before, and was sent what the actor got done of its events, or it was registered
by the step. -/
theorem WatchSys.Moves.watcher {capacity : Nat} {s s' : WatchSys} {a : WatchAction} (h : s.Moves capacity a s')
    {w' : Watcher} (hw' : w' ∈ s'.watchers) :
    (∃ w ∈ s.watchers, w.Continues w' ∧
      ∃ events, s'.done = s.done ++ events ∧ w'.sent = w.sent ++ events.filter w.wants) ∨
    (s.Registered w' ∧ s'.done = s.done ∧ s'.sm = s.sm ∧ s'.history = s.history ∧ s'.missed = s.missed) := by
  have hsame : ∀ {w : Watcher}, w ∈ s.watchers → w.Continues w' → s'.done = s.done → w'.sent = w.sent →
      ∃ w ∈ s.watchers, w.Continues w' ∧
        ∃ events, s'.done = s.done ++ events ∧ w'.sent = w.sent ++ events.filter w.wants := by
    intro w hw hcontinues hdone hsent
    refine ⟨w, hw, hcontinues, [], ?_, ?_⟩
    · rw [List.append_nil, hdone]
    · rw [List.filter_nil, List.append_nil, hsent]
  cases h with
  | apply | restore | send | refuse | note | receive | finish => exact .inl (hsame hw' (.refl w') rfl rfl)
  | @register start upper limit h =>
      obtain ⟨watchers, heq, hmem⟩ := s.register_eq start upper limit
      rw [heq] at hw' ⊢
      rcases hmem w' hw' with hw | hw
      · exact .inl ⟨w', hw, .refl w', [], (List.append_nil _).symm, (List.append_nil _).symm⟩
      · exact .inr ⟨hw, rfl, rfl, rfl, rfl⟩
  | drain h => exact .inl (hsame (WatchSys.mem_drain hw').1 (.refl w') rfl rfl)
  | offer h =>
      obtain ⟨w, hw, hoffer⟩ := List.mem_filterMap.mp hw'
      obtain ⟨hcontinues, hsent⟩ := Watcher.of_offer hoffer
      exact .inl ⟨w, hw, hcontinues, _, rfl, hsent⟩
  | take hk =>
      rcases List.mem_or_eq_of_mem_set hw' with hw' | rfl
      · exact .inl (hsame hw' (.refl w') rfl rfl)
      · exact .inl (hsame (List.mem_of_getElem? hk) ⟨rfl, rfl, rfl, rfl⟩ rfl rfl)
  | leave hk =>
      rcases List.mem_or_eq_of_mem_set hw' with hw' | rfl
      · exact .inl (hsame hw' (.refl w') rfl rfl)
      · exact .inl (hsame (List.mem_of_getElem? hk) ⟨rfl, rfl, rfl, rfl⟩ rfl rfl)

/-! ## What was emitted, and where it is -/

/-- What the actor has taken and not yet offered. -/
def Dispatch.left : Dispatch → List WatchEvent
  | .idle => []
  | .received _ events => events
  | .sending events => events

/-- The events on their way, in order. -/
def WatchSys.queued (s : WatchSys) : List WatchEvent :=
  s.dispatch.left ++ s.channel.flatMap Prod.snd ++ s.inHand.toList.flatMap Prod.snd

/-- In log order, and each key once in an entry. -/
def Later (a b : WatchEvent) : Prop := a.index < b.index ∨ (a.index = b.index ∧ a.key ≠ b.key)

structure WatchSys.Delivered (s : WatchSys) : Prop where
  /-- No event is emitted twice, and they are emitted in log order. -/
  sorted : s.history.Pairwise Later
  applied : ∀ ev ∈ s.history, ev.index ≤ s.sm.applied
  missedApplied : ∀ i ∈ s.missed, i ≤ s.sm.applied
  /-- What the apply task holds is the last entry. -/
  held : ∀ batch, s.inHand = some batch ∨ s.refused = some batch → batch.1 = s.sm.applied ∧
    (∀ ev ∈ batch.2, ev.index = batch.1) ∧ ∀ ev ∈ s.history, ev.index = batch.1 → ev ∈ batch.2
  /-- What is in the task's hands is not lost yet. -/
  notMissed : ∀ batch, s.inHand = some batch → batch.1 ∉ s.missed
  /-- Nothing but the dropped batches is lost. -/
  split : s.history.filter (fun ev => decide (ev.index ∉ s.missed)) = s.done ++ s.queued
  /-- A watcher was sent what it wants of what the actor is done with. -/
  sent : ∀ w ∈ s.watchers, w.sent = s.done.filter w.wants

theorem delivered_start (sm : Store) : (WatchSys.start sm).Delivered where
  sorted := .nil
  applied := nofun
  missedApplied := nofun
  held := by
    intro batch h
    rcases h with h | h <;> cases h
  notMissed := nofun
  split := rfl
  sent := nofun

/-! ### Applying an entry -/

section Apply

variable {s : WatchSys} {index : UInt64} {command : Bytes} {applied : StateMachine.Applied} {sm : Store}

theorem lt_next (hnext : index.toNat = s.sm.applied.toNat + 1) {i : UInt64} (hi : i ≤ s.sm.applied) : i < index := by
  rw [UInt64.lt_iff_toNat_lt]
  have := UInt64.le_iff_toNat_le.mp hi
  omega

theorem flatMap_batchOf (index : UInt64) (events : List WatchEvent) :
    (batchOf index events).toList.flatMap Prod.snd = events := by
  unfold batchOf
  cases events with
  | nil => rfl
  | cons ev events => exact List.append_nil _

theorem of_batchOf {index : UInt64} {events : List WatchEvent} {batch : UInt64 × List WatchEvent}
    (h : batchOf index events = some batch) : batch = (index, events) := by
  unfold batchOf at h
  split_ifs at h
  cases h
  rfl

theorem WatchSys.Delivered.apply (hinv : s.Delivered) (hnext : index.toNat = s.sm.applied.toNat + 1)
    (hhand : s.inHand = none) (hrefused : s.refused = none) (h : s.sm.apply index command = (.ok applied, sm)) :
    WatchSys.Delivered
      { s with sm, inHand := batchOf index applied.events, history := s.history ++ applied.events } := by
  obtain ⟨hbatch, -⟩ := Store.values_apply h
  have happlied : sm.applied = index := Store.applied_of_apply h
  have hle : ∀ {i : UInt64}, i ≤ s.sm.applied → i < index := lt_next hnext
  constructor
  case sorted =>
    refine List.pairwise_append.mpr ⟨hinv.sorted, ?_, ?_⟩
    · refine hbatch.keys.imp_of_mem ?_
      intro a b ha hb hkey
      exact .inr ⟨(hbatch.index a ha).trans (hbatch.index b hb).symm, hkey⟩
    · intro a ha b hb
      left
      rw [hbatch.index b hb]
      exact hle (hinv.applied a ha)
  case applied =>
    intro ev hev
    show ev.index ≤ sm.applied
    rw [happlied]
    rcases List.mem_append.mp hev with hev | hev
    · exact UInt64.le_of_lt (hle (hinv.applied ev hev))
    · exact UInt64.le_of_eq (hbatch.index ev hev)
  case missedApplied =>
    intro i hi
    show i ≤ sm.applied
    rw [happlied]
    exact UInt64.le_of_lt (hle (hinv.missedApplied i hi))
  case held =>
    intro batch hheld
    rcases hheld with hheld | hheld
    · obtain rfl := of_batchOf hheld
      refine ⟨happlied.symm, hbatch.index, ?_⟩
      intro ev hev hindex
      rcases List.mem_append.mp hev with hev | hev
      · exact absurd hindex (UInt64.ne_of_lt (hle (hinv.applied ev hev)))
      · exact hev
    · rw [show s.refused = some batch from hheld] at hrefused
      cases hrefused
  case notMissed =>
    intro batch hheld hmem
    obtain rfl := of_batchOf hheld
    exact UInt64.lt_irrefl _ (hle (hinv.missedApplied _ hmem))
  case split =>
    have hkept : applied.events.filter (fun ev => decide (ev.index ∉ s.missed)) = applied.events := by
      refine List.filter_eq_self.mpr ?_
      intro ev hev
      rw [hbatch.index ev hev]
      exact decide_eq_true fun hmem => UInt64.lt_irrefl _ (hle (hinv.missedApplied _ hmem))
    show (s.history ++ applied.events).filter _ =
      s.done ++ (s.dispatch.left ++ s.channel.flatMap Prod.snd ++ (batchOf index applied.events).toList.flatMap Prod.snd)
    rw [List.filter_append, hkept, hinv.split, flatMap_batchOf]
    unfold WatchSys.queued
    rw [hhand]
    simp only [Option.toList_none, List.flatMap_nil, List.append_nil, List.append_assoc]
  case sent => exact hinv.sent

end Apply

/-! ### The other steps -/

section Steps

variable {capacity : Nat} {s s' : WatchSys} {a : WatchAction}

theorem WatchSys.Delivered.mem_history (hinv : s.Delivered) {ev : WatchEvent} (hev : ev ∈ s.done ++ s.queued) :
    ev ∈ s.history := by
  rw [← hinv.split] at hev
  exact List.mem_of_mem_filter hev

theorem WatchSys.Delivered.pairwise (hinv : s.Delivered) : (s.done ++ s.queued).Pairwise Later := by
  rw [← hinv.split]
  exact hinv.sorted.filter _

theorem Later.irrefl {ev : WatchEvent} (h : Later ev ev) : False := by
  rcases h with h | ⟨-, h⟩
  · exact UInt64.lt_irrefl _ h
  · exact h rfl

/-- Events up to the applied index are none that a fresh watcher wants. -/
theorem WatchSys.Registered.not_wants {w : Watcher} (h : s.Registered w) {ev : WatchEvent}
    (hev : ev.index ≤ s.sm.applied) : ¬ w.wants ev = true := by
  intro hwants
  have hlt : ev.index > w.filter := of_decide_eq_true (Bool.and_eq_true_iff.mp hwants).1
  rw [h.filter] at hlt
  exact UInt64.not_lt.mpr hev hlt

theorem WatchSys.Delivered.sent_step (hinv : s.Delivered) (h : s.Moves capacity a s') :
    ∀ w ∈ s'.watchers, w.sent = s'.done.filter w.wants := by
  intro w' hw'
  rcases h.watcher hw' with ⟨w, hw, hcontinues, events, hdone, hsent⟩ | ⟨hregistered, hdone, -⟩
  · rw [hsent, hdone, hcontinues.wants, List.filter_append, hinv.sent w hw]
  · rw [hregistered.sent, hdone]
    symm
    refine List.filter_eq_nil_iff.mpr ?_
    intro ev hev
    exact hregistered.not_wants (hinv.applied ev (hinv.mem_history (List.mem_append_left _ hev)))

/-- A batch that is refused leaves what is on its way to the actor. -/
theorem WatchSys.Delivered.split_refuse (hinv : s.Delivered) {batch : UInt64 × List WatchEvent}
    (h : s.inHand = some batch) :
    s.history.filter (fun ev => decide (ev.index ∉ s.missed ++ [batch.1])) =
      s.done ++ (s.dispatch.left ++ s.channel.flatMap Prod.snd) := by
  obtain ⟨-, hindex, hall⟩ := hinv.held batch (.inl h)
  have hqueued : s.done ++ s.queued = (s.done ++ (s.dispatch.left ++ s.channel.flatMap Prod.snd)) ++ batch.2 := by
    unfold WatchSys.queued
    rw [h]
    simp only [Option.toList_some, List.flatMap_cons, List.flatMap_nil, List.append_nil, List.append_assoc]
  have hpairwise := hinv.pairwise
  rw [hqueued] at hpairwise
  have hfilter : s.history.filter (fun ev => decide (ev.index ∉ s.missed ++ [batch.1])) =
      (s.done ++ s.queued).filter fun ev => decide (ev.index ≠ batch.1) := by
    rw [← hinv.split, List.filter_filter]
    refine List.filter_congr ?_
    intro ev _
    rw [← Bool.decide_and, decide_eq_decide, List.mem_append, List.mem_singleton, not_or]
    exact and_comm
  rw [hfilter, hqueued, List.filter_append]
  have hnone : batch.2.filter (fun ev => decide (ev.index ≠ batch.1)) = [] := by
    refine List.filter_eq_nil_iff.mpr ?_
    intro ev hev hne
    exact of_decide_eq_true hne (hindex ev hev)
  rw [hnone, List.append_nil]
  refine List.filter_eq_self.mpr ?_
  intro ev hev
  -- An event of this index is in the batch, and none of the batch comes before the batch.
  refine decide_eq_true fun heq => ?_
  have hmem : ev ∈ s.history := hinv.mem_history (by rw [hqueued]; exact List.mem_append_left _ hev)
  exact Later.irrefl ((List.pairwise_append.mp hpairwise).2.2 ev hev ev (hall ev hmem heq))

theorem WatchSys.Delivered.step (hinv : s.Delivered) (horder : InOrder s a) (h : s.Moves capacity a s') :
    s'.Delivered := by
  have hsent := hinv.sent_step h
  cases h with
  | apply hhand hrefused h => exact hinv.apply horder hhand hrefused h
  | @restore data sm hhand hrefused h =>
      have hle : s.sm.applied ≤ sm.applied := by
        have horder : s.sm.applied ≤ (s.sm.restore data).2.applied := horder
        rw [h] at horder
        exact horder
      refine { hinv with applied := ?_, missedApplied := ?_, held := ?_ }
      · intro ev hev
        exact UInt64.le_trans (hinv.applied ev hev) hle
      · intro i hi
        exact UInt64.le_trans (hinv.missedApplied i hi) hle
      · intro batch hheld
        rcases hheld with hheld | hheld
        · rw [show s.inHand = some batch from hheld] at hhand
          cases hhand
        · rw [show s.refused = some batch from hheld] at hrefused
          cases hrefused
  | @send batch h hroom =>
      refine { hinv with held := ?_, notMissed := nofun, split := ?_ }
      · intro batch' hheld
        rcases hheld with hheld | hheld
        · cases hheld
        · exact hinv.held batch' (.inr hheld)
      · rw [hinv.split]
        unfold WatchSys.queued
        rw [h]
        simp only [Option.toList_some, Option.toList_none, List.flatMap_append, List.flatMap_cons, List.flatMap_nil,
          List.append_nil, List.append_assoc]
  | @refuse batch h hfull =>
      obtain ⟨happlied, -⟩ := hinv.held batch (.inl h)
      refine { hinv with missedApplied := ?_, held := ?_, notMissed := nofun, split := ?_ }
      · intro i hi
        rcases List.mem_append.mp hi with hi | hi
        · exact hinv.missedApplied i hi
        · rw [List.mem_singleton.mp hi, happlied]
          exact UInt64.le_refl _
      · intro batch' hheld
        rcases hheld with hheld | hheld
        · cases hheld
        · cases hheld
          exact hinv.held batch (.inl h)
      · rw [hinv.split_refuse h]
        unfold WatchSys.queued
        simp only [Option.toList_none, List.flatMap_nil, List.append_nil]
  | note h =>
      refine { hinv with held := ?_ }
      intro batch hheld
      rcases hheld with hheld | hheld
      · exact hinv.held batch (.inl hheld)
      · cases hheld
  | @register start upper limit h =>
      obtain ⟨watchers, heq, -⟩ := s.register_eq start upper limit
      rw [heq] at hsent ⊢
      exact { hinv with sent := hsent }
  | receive h hchannel =>
      refine { hinv with split := hinv.split.trans ?_ }
      unfold WatchSys.queued
      rw [h, hchannel]
      rfl
  | drain h =>
      refine { hinv with split := hinv.split.trans ?_, sent := hsent }
      unfold WatchSys.queued
      rw [h]
      rfl
  | @offer ev rest h =>
      refine { hinv with split := hinv.split.trans ?_, sent := hsent }
      show s.done ++ s.queued = s.done ++ [ev] ++ _
      unfold WatchSys.queued
      rw [h, List.append_assoc s.done]
      rfl
  | finish h =>
      refine { hinv with split := hinv.split.trans ?_ }
      unfold WatchSys.queued
      rw [h]
      rfl
  | take | leave => exact { hinv with sent := hsent }

end Steps

theorem delivered_of_run {capacity : Nat} {allowed : WatchSys → WatchAction → Prop} {sm : Store}
    {actions : List WatchAction} {s : WatchSys} (h : WatchRun capacity allowed sm actions s) : s.Delivered := by
  refine h.invariant (P := fun _ s => s.Delivered) ?_ ?_
  · rintro s rfl
    exact delivered_start sm
  · intro _ s a s' _ hinv hstep
    obtain ⟨horder, -, hexec⟩ := hstep
    exact hinv.step horder (WatchSys.moves_of_exec hexec)

end Arachne.Runtime.Watch
