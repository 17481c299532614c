import Arachne.Runtime.WatchDelivery

/-! # Watch streams across snapshot installs

A watcher that folds its events over the snapshot it was given follows its range of the state machine. An installed
snapshot replaces the state machine's content in one step and emits no events, and the watchers stay connected: they
keep the content from before (`watch_stale_after_install`). The watchers follow their ranges as long as no install
changes them (`watch_follows_range`). -/

namespace Arachne.Runtime.Watch

open Codec (Bytes)
open StateMachine (Store KvMap Entry WatchEvent finalValues replay replay_append)

/-- The values of listed entries. -/
def valuesOf (entries : List (Bytes × Bytes)) : Bytes → Option Bytes := fun key => (finalValues entries)[key]?

/-- The content of the watched range. -/
def Watcher.range (w : Watcher) (kv : KvMap) : List (Bytes × Bytes) := rangeEntries kv w.start w.upper

/-- What the consumer has if it folds all its events over its snapshot. -/
def Watcher.folded (w : Watcher) : Bytes → Option Bytes := replay (valuesOf w.snapshot) w.sent

/-- A snapshot that is installed has the content the registered watchers' ranges have already. -/
def RangesKept (s : WatchSys) : WatchAction → Prop
  | .restore data => ∀ w ∈ s.watchers, w.range (s.sm.restore data).2.kv = w.range s.sm.kv
  | _ => True

/-! ## Ranges -/

/-- Values of the keys that satisfy `p` only. -/
def within (p : Bytes → Bool) (values : Bytes → Option Bytes) : Bytes → Option Bytes :=
  fun key => if p key then values key else none

theorem mem_rangeEntries {kv : KvMap} {start upper key val : Bytes} :
    (key, val) ∈ rangeEntries kv start upper ↔
      inRange start upper key = true ∧ ∃ entry, kv[key]? = some entry ∧ entry.val = val := by
  unfold rangeEntries
  rw [List.mem_map]
  constructor
  · rintro ⟨⟨k, entry⟩, hmem, heq⟩
    cases heq
    obtain ⟨hmem, hrange⟩ := List.mem_filter.mp hmem
    exact ⟨hrange, entry, Std.ExtTreeMap.mem_toList_iff_getElem?_eq_some.mp hmem, rfl⟩
  · rintro ⟨hrange, entry, hentry, rfl⟩
    refine ⟨(key, entry), List.mem_filter.mpr ⟨?_, hrange⟩, rfl⟩
    exact Std.ExtTreeMap.mem_toList_iff_getElem?_eq_some.mpr hentry

theorem nodup_rangeEntries (kv : KvMap) (start upper : Bytes) : ((rangeEntries kv start upper).map Prod.fst).Nodup := by
  unfold rangeEntries
  rw [List.map_map]
  exact (OrdMap.nodup_fst_toList kv).sublist (List.filter_sublist.map Prod.fst)

/-- Listing a range keeps its values. -/
theorem valuesOf_rangeEntries (kv : KvMap) (start upper : Bytes) :
    valuesOf (rangeEntries kv start upper) = within (inRange start upper) kv.values := by
  funext key
  refine Option.ext fun val => ?_
  unfold valuesOf finalValues within
  rw [OrdMap.getElem?_foldl_insert (nodup_rangeEntries kv start upper), mem_rangeEntries]
  by_cases hrange : inRange start upper key = true
  · simp [hrange, KvMap.values]
  · simp [hrange]

theorem within_update_of_pos {p : Bytes → Bool} {key : Bytes} (h : p key = true) (values : Bytes → Option Bytes)
    (val : Option Bytes) :
    within p (Function.update values key val) = Function.update (within p values) key val := by
  funext k
  unfold within
  by_cases hk : k = key
  · subst hk
    rw [if_pos h, Function.update_self, Function.update_self]
  · rw [Function.update_of_ne hk, Function.update_of_ne hk]

theorem within_update_of_neg {p : Bytes → Bool} {key : Bytes} (h : ¬ p key = true) (values : Bytes → Option Bytes)
    (val : Option Bytes) : within p (Function.update values key val) = within p values := by
  funext k
  unfold within
  by_cases hk : k = key
  · subst hk
    rw [if_neg h, if_neg h]
  · rw [Function.update_of_ne hk]

/-- Events of other keys do not matter within a range. -/
theorem replay_within (p : Bytes → Bool) (values : Bytes → Option Bytes) (events : List WatchEvent) :
    replay (within p values) (events.filter fun ev => p ev.key) = within p (replay values events) := by
  induction events generalizing values with
  | nil => rfl
  | cons ev events ih =>
      show _ = within p (replay (Function.update values ev.key ev.value) events)
      rw [← ih]
      by_cases hkey : p ev.key = true
      · rw [List.filter_cons, if_pos hkey, within_update_of_pos hkey]
        rfl
      · rw [List.filter_cons, if_neg hkey, within_update_of_neg hkey]

/-! ## Following a range -/

/-- A watcher that was sent every event it wants would have the content of its range. -/
structure WatchSys.Follows (s : WatchSys) (w : Watcher) : Prop where
  filter : w.filter ≤ s.sm.applied
  values : replay (valuesOf w.snapshot) (s.history.filter w.wants) = valuesOf (w.range s.sm.kv)

section Follows

variable {capacity : Nat} {s s' : WatchSys} {a : WatchAction} {w w' : Watcher}

theorem Watcher.valuesOf_range (w : Watcher) (kv : KvMap) : valuesOf (w.range kv) = within w.covers kv.values :=
  valuesOf_rangeEntries kv w.start w.upper

theorem WatchSys.Follows.of_continues (h : s.Follows w) (hw : w.Continues w') (hsm : s'.sm = s.sm)
    (hhistory : s'.history = s.history) : s'.Follows w' := by
  refine ⟨?_, ?_⟩
  · rw [hw.filter, hsm]
    exact h.filter
  · unfold Watcher.range
    rw [hw.snapshot, hw.wants, hw.start, hw.upper, hhistory, hsm]
    exact h.values

/-- Whatever is listed without being cut off is the range. -/
theorem eq_range_of_getRange {kv : KvMap} {start upper : Bytes} {limit : Nat} {entries : List (Bytes × Bytes)}
    (h : (entries, false) = getRange kv start upper limit) : entries = rangeEntries kv start upper := by
  unfold getRange at h
  simp only at h
  split_ifs at h with hreversed
  · cases h
    simp only [rangeEntries, inRange_eq, StateMachine.filter_inInterval_reversed kv hreversed, List.map_nil]
  · obtain ⟨hentries, hlength⟩ := Prod.mk.inj h
    rw [hentries]
    exact List.take_of_length_le (not_lt.mp (of_decide_eq_false hlength.symm))

theorem WatchSys.Registered.follows (h : s.Registered w) (hdelivered : s.Delivered) : s.Follows w := by
  obtain ⟨limit, hsnapshot⟩ := h.snapshot
  refine ⟨UInt64.le_of_eq h.filter, ?_⟩
  have hnone : s.history.filter w.wants = [] :=
    List.filter_eq_nil_iff.mpr fun ev hev => h.not_wants (hdelivered.applied ev hev)
  rw [hnone, eq_range_of_getRange hsnapshot]
  rfl

/-- An applied entry changes the range by the events the watcher wants. -/
theorem WatchSys.Follows.apply {index : UInt64} {command : Bytes} {applied : StateMachine.Applied} {sm : Store}
    (h : s.Follows w) (hnext : index.toNat = s.sm.applied.toNat + 1)
    (happly : s.sm.apply index command = (.ok applied, sm)) :
    WatchSys.Follows
      { s with sm, inHand := batchOf index applied.events, history := s.history ++ applied.events } w := by
  obtain ⟨hbatch, hvalues⟩ := Store.values_apply happly
  have hlt : w.filter < index := lt_next hnext h.filter
  have hwants : applied.events.filter w.wants = applied.events.filter fun ev => w.covers ev.key := by
    refine List.filter_congr ?_
    intro ev hev
    unfold Watcher.wants
    rw [hbatch.index ev hev, decide_eq_true hlt, Bool.true_and]
  refine ⟨?_, ?_⟩
  · show w.filter ≤ sm.applied
    rw [Store.applied_of_apply happly]
    exact UInt64.le_of_lt hlt
  · show replay _ ((s.history ++ applied.events).filter w.wants) = valuesOf (w.range sm.kv)
    rw [List.filter_append, replay_append, h.values, hwants, w.valuesOf_range, w.valuesOf_range, replay_within, hvalues]

theorem WatchSys.Follows.restore {data : Bytes} {sm : Store} (h : s.Follows w) (hw : w ∈ s.watchers)
    (horder : InOrder s (.restore data)) (hkept : RangesKept s (.restore data))
    (hrestore : s.sm.restore data = (.ok (), sm)) : WatchSys.Follows { s with sm } w := by
  have horder : s.sm.applied ≤ (s.sm.restore data).2.applied := horder
  have hrange : w.range (s.sm.restore data).2.kv = w.range s.sm.kv := hkept w hw
  rw [hrestore] at horder hrange
  refine ⟨UInt64.le_trans h.filter horder, ?_⟩
  show _ = valuesOf (w.range sm.kv)
  rw [hrange]
  exact h.values

theorem follows_step (hinv : ∀ w ∈ s.watchers, s.Follows w) (hdelivered : s.Delivered) (horder : InOrder s a)
    (hkept : RangesKept s a) (h : s.Moves capacity a s') : ∀ w ∈ s'.watchers, s'.Follows w := by
  have hframe : s'.sm = s.sm → s'.history = s.history → ∀ w ∈ s'.watchers, s'.Follows w := by
    intro hsm hhistory w' hw'
    rcases h.watcher hw' with ⟨w, hw, hcontinues, -⟩ | ⟨hregistered, -⟩
    · exact (hinv w hw).of_continues hcontinues hsm hhistory
    · exact (hregistered.follows hdelivered).of_continues (.refl w') hsm hhistory
  cases h with
  | apply hhand hrefused h => exact fun w hw => (hinv w hw).apply horder h
  | restore hhand hrefused h => exact fun w hw => (hinv w hw).restore hw horder hkept h
  | @register start upper limit h =>
      obtain ⟨watchers, heq, -⟩ := s.register_eq start upper limit
      rw [heq] at hframe ⊢
      exact hframe rfl rfl
  | send | refuse | note | receive | drain | offer | finish | take | leave => exact hframe rfl rfl

end Follows

section Result

variable {capacity : Nat} {s : WatchSys} {sm : Store} {actions : List WatchAction}

theorem follows_of_run (h : WatchRun capacity RangesKept sm actions s) : ∀ w ∈ s.watchers, s.Follows w := by
  refine h.invariant (P := fun _ s => ∀ w ∈ s.watchers, s.Follows w) ?_ ?_
  · rintro s rfl
    nofun
  · rintro _ s a s' hrun hfollows ⟨horder, hkept, hexec⟩
    exact follows_step hfollows (delivered_of_run hrun) horder hkept (WatchSys.moves_of_exec hexec)

/-- **Watchers follow their ranges.** If no install changes the range of a registered watcher and no batch was
dropped, then a watcher that is connected has, once all events are dispatched, the content of its range. -/
theorem watch_follows_range (h : WatchRun capacity RangesKept sm actions s) (hmissed : s.missed = [])
    (hhand : s.inHand = none) (hchannel : s.channel = []) (hidle : s.dispatch = .idle) :
    ∀ w ∈ s.watchers, w.folded = valuesOf (w.range s.sm.kv) := by
  have hdelivered := delivered_of_run h
  have hdone : s.history = s.done := by
    have hsplit := hdelivered.split
    unfold WatchSys.queued at hsplit
    rw [hmissed, hhand, hchannel, hidle] at hsplit
    simpa [Dispatch.left] using hsplit
  intro w hw
  unfold Watcher.folded
  rw [hdelivered.sent w hw, ← hdone]
  exact (follows_of_run h w hw).values

end Result

/-! ## An install that changes a range -/

instance (s : WatchSys) (a : WatchAction) : Decidable (RangesKept s a) :=
  match a with
  | .restore _ => inferInstanceAs (Decidable (∀ w ∈ s.watchers, _ = _))
  | .apply _ _ | .send | .note | .register _ _ _ | .receive | .drain | .offer | .finish | .take _ | .leave _ =>
    isTrue trivial

/-- The state after the first write of a key. -/
def storeWith (key : Bytes) : Store := (Store.new.apply 1 (StateMachine.encodePut ⟨1, 1⟩ key [])).2

/-- An install over a registered watcher of the key 1. -/
def installOver (key : Bytes) : List WatchAction := [.register [1] [2] 10, .restore (storeWith key).snapshot]

/-- The snapshot brings the key 1. The watcher is connected, nothing is on its way to it, and it does not have the
key. -/
theorem watch_stale_after_install :
    ∃ s, WatchRun 256 (fun _ _ => True) .new (installOver [1]) s ∧ s.missed = [] ∧ s.inHand = none ∧ s.channel = [] ∧
      s.dispatch = .idle ∧ ∃ w ∈ s.watchers, w.folded [1] ≠ valuesOf (w.range s.sm.kv) [1] := by
  have heval : ((installOver [1]).foldlM (WatchSys.execAllowed 256 fun _ _ => True) (.start .new)).any (fun s =>
      s.missed = [] ∧ s.inHand = none ∧ s.channel = [] ∧ s.dispatch = .idle ∧
        ∃ w ∈ s.watchers, w.folded [1] ≠ valuesOf (w.range s.sm.kv) [1]) := by
    decide +kernel
  obtain ⟨s, hs, hfacts⟩ := (Option.any_eq_true _ _).mp heval
  exact ⟨s, run_of_execAllowed hs, of_decide_eq_true hfacts⟩

/-- An install that brings another key, and then a write of the watched key. -/
def installAndWrite : List WatchAction :=
  installOver [5] ++ [.apply 2 (StateMachine.encodePut ⟨1, 2⟩ [1] [7]), .send, .receive, .drain, .offer, .finish]

theorem watch_follows_range_other_key :
    ∃ s, WatchRun 256 RangesKept .new installAndWrite s ∧ s.watchers.map (·.sent.length) = [1] ∧
      ∀ w ∈ s.watchers, w.folded = valuesOf (w.range s.sm.kv) := by
  have heval : (installAndWrite.foldlM (WatchSys.execAllowed 256 RangesKept) (.start .new)).any (fun s =>
      s.missed = [] ∧ s.inHand = none ∧ s.channel = [] ∧ s.dispatch = .idle ∧
        s.watchers.map (·.sent.length) = [1]) := by
    decide +kernel
  obtain ⟨s, hs, hfacts⟩ := (Option.any_eq_true _ _).mp heval
  obtain ⟨hmissed, hhand, hchannel, hidle, hsent⟩ := of_decide_eq_true hfacts
  have hrun := run_of_execAllowed hs
  exact ⟨s, hrun, hsent, watch_follows_range hrun hmissed hhand hchannel hidle⟩

end Arachne.Runtime.Watch
