import Mathlib.Data.List.Basic

/-! # Feeding a replica

A replica that stands at index `w` of a log is fed **items**: the entry at the next index, or a snapshot that
moves it to an index at or above its own. `Follows log w items w'` says that the items are such a feed and
that it ends at `w'`. Feeds compose (`follows_append`), so a feed that waits in several queues, one behind the
other, is one feed wherever it is cut.

A feed may skip entries under a snapshot. `Complete` says that it skips none above the latest one. -/

namespace Feed

universe u

/-- What a replica is fed: the payload of the entry at an index, or a snapshot taken at an index. -/
inductive Item (α : Type u) where
  | entry (index : Nat) (payload : α)
  | restore (index : Nat)
  deriving DecidableEq, Repr

variable {α : Type u}

def Item.index : Item α → Nat
  | .entry i _ => i
  | .restore i => i

def Item.entryIndex : Item α → Option Nat
  | .entry i _ => some i
  | .restore _ => none

/-- The items take a replica from `w` to `w'`: every entry is the next one of the log, and no snapshot takes
the replica back. -/
def Follows (log : Nat → α) : Nat → List (Item α) → Nat → Prop
  | w, [], w' => w = w'
  | w, .entry i x :: items, w' => i = w + 1 ∧ x = log i ∧ Follows log i items w'
  | w, .restore i :: items, w' => w ≤ i ∧ Follows log i items w'

variable {log : Nat → α} {v w w' : Nat} {xs ys : List (Item α)} {x : Item α}

/-- One item, without the case split on what it is. -/
theorem follows_cons :
    Follows log w (x :: xs) w' ↔ Follows log w [x] x.index ∧ Follows log x.index xs w' := by
  cases x <;> simp [Follows, Item.index, and_assoc]

theorem Follows.uncons (h : Follows log w (x :: xs) w') : Follows log w [x] x.index ∧ Follows log x.index xs w' :=
  follows_cons.mp h

theorem follows_append : Follows log w (xs ++ ys) w' ↔ ∃ v, Follows log w xs v ∧ Follows log v ys w' := by
  induction xs generalizing w with
  | nil => simp [Follows]
  | cons x xs ih =>
      rw [List.cons_append, follows_cons, ih]
      constructor
      · rintro ⟨hx, v, hxs, hys⟩
        exact ⟨v, follows_cons.mpr ⟨hx, hxs⟩, hys⟩
      · rintro ⟨v, hxs, hys⟩
        obtain ⟨hx, hxs⟩ := hxs.uncons
        exact ⟨hx, v, hxs, hys⟩

theorem Follows.append (h : Follows log w xs v) (h' : Follows log v ys w') : Follows log w (xs ++ ys) w' :=
  follows_append.mpr ⟨v, h, h'⟩

theorem Follows.split (h : Follows log w (xs ++ ys) w') : ∃ v, Follows log w xs v ∧ Follows log v ys w' :=
  follows_append.mp h

/-- A feed ends in one place. -/
theorem Follows.unique (h : Follows log w xs v) (h' : Follows log w xs w') : v = w' := by
  induction xs generalizing w with
  | nil => exact h.symm.trans h'
  | cons x xs ih => exact ih h.uncons.2 h'.uncons.2

/-- What is behind a cut follows from where the part before it ends. -/
theorem Follows.suffix (h : Follows log w (xs ++ ys) w') (hxs : Follows log w xs v) : Follows log v ys w' := by
  obtain ⟨u, hu, hys⟩ := h.split
  rwa [hu.unique hxs] at hys

theorem Follows.le_index (h : Follows log w [x] w') : w ≤ x.index := by
  cases x with
  | entry i a => exact h.1 ▸ Nat.le_succ w
  | restore i => exact h.1

theorem Follows.le (h : Follows log w xs w') : w ≤ w' := by
  induction xs generalizing w with
  | nil => exact Nat.le_of_eq h
  | cons x xs ih =>
      obtain ⟨hx, hxs⟩ := h.uncons
      exact Nat.le_trans hx.le_index (ih hxs)

/-- Every item of a feed lies between its ends. -/
theorem Follows.index_le (h : Follows log w xs w') (hx : x ∈ xs) : w ≤ x.index ∧ x.index ≤ w' := by
  obtain ⟨pre, post, rfl⟩ := List.append_of_mem hx
  obtain ⟨v, hpre, hpost⟩ := h.split
  obtain ⟨hhead, htail⟩ := hpost.uncons
  exact ⟨Nat.le_trans hpre.le hhead.le_index, htail.le⟩

/-- An entry is above everything that was fed before it. -/
theorem Follows.lt_entry {i : Nat} {a : α} (h : Follows log w xs w') (hx : .entry i a ∈ xs) : w < i := by
  obtain ⟨pre, post, rfl⟩ := List.append_of_mem hx
  obtain ⟨v, hpre, rfl, -⟩ := h.split
  exact Nat.lt_succ_of_le hpre.le

/-- **In index order, and none twice.** -/
theorem Follows.pairwise (h : Follows log w xs w') : (xs.filterMap Item.entryIndex).Pairwise (· < ·) := by
  induction xs generalizing w with
  | nil => exact .nil
  | cons x xs ih =>
      obtain ⟨-, hxs⟩ := h.uncons
      cases x with
      | restore i => exact ih hxs
      | entry i a =>
          refine List.pairwise_cons.mpr ⟨fun j hj => ?_, ih hxs⟩
          obtain ⟨y, hy, hindex⟩ := List.mem_filterMap.mp hj
          cases y with
          | restore k => cases hindex
          | entry k b =>
              obtain rfl := Option.some.inj hindex
              exact hxs.lt_entry hy

/-! ## Nothing skipped -/

/-- The entries above `a` up to `b`. -/
def entries (log : Nat → α) (a b : Nat) : List (Item α) := (List.range' (a + 1) (b - a)).map fun i => .entry i (log i)

@[simp]
theorem entries_self (log : Nat → α) (a : Nat) : entries log a a = [] := by simp [entries]

theorem entries_append (log : Nat → α) {a b c : Nat} (hab : a ≤ b) (hbc : b ≤ c) :
    entries log a b ++ entries log b c = entries log a c := by
  have hstart : b + 1 = a + 1 + 1 * (b - a) := by omega
  rw [entries, entries, ← List.map_append, hstart, List.range'_append, show b - a + (c - b) = c - a by omega]
  rfl

/-- **No entry above the latest snapshot is skipped**: a feed that began at `start` and whose latest snapshot is
at `latest`, if it had any, ends in exactly the entries from there up to `last`. -/
def Complete (log : Nat → α) (start : Nat) : Option Nat → Nat → List (Item α) → Prop
  | none, last, items => items = entries log start last
  | some s, last, items => ∃ before, items = before ++ .restore s :: entries log s last

theorem Complete.extend {start last last' : Nat} {latest : Option Nat} (h : Complete log start latest last xs)
    (hfollows : Follows log start xs last) (hle : last ≤ last') :
    Complete log start latest last' (xs ++ entries log last last') := by
  cases latest with
  | none =>
      obtain rfl := h
      exact entries_append log hfollows.le hle
  | some s =>
      obtain ⟨before, rfl⟩ := h
      have hs : s ≤ last := (hfollows.index_le (List.mem_append_right before List.mem_cons_self)).2
      refine ⟨before, ?_⟩
      rw [List.append_assoc, List.cons_append, entries_append log hs hle]

theorem follows_entries (log : Nat → α) {a b : Nat} (h : a ≤ b) : Follows log a (entries log a b) b := by
  obtain ⟨n, rfl⟩ := Nat.exists_eq_add_of_le h
  rw [entries, Nat.add_sub_cancel_left]
  induction n generalizing a with
  | zero => rfl
  | succ n ih =>
      refine ⟨rfl, rfl, ?_⟩
      rw [Nat.add_comm n, ← Nat.add_assoc]
      exact ih (Nat.le_add_right (a + 1) n)

/-! ## One queue

A pipeline between a log and a replica, whatever it is built of, is one queue of items that wait. New entries
join it at the end. A snapshot may drop what it finds at the end and takes its place. -/

def Item.restoreIndex : Item α → Option Nat
  | .entry _ _ => none
  | .restore i => some i

structure Pipe (α : Type u) where
  fed : List (Item α)
  waiting : List (Item α)
  /-- The last index that was delivered. -/
  delivered : Nat
  /-- The snapshots that were delivered, the latest first. -/
  installs : List Nat
  /-- The snapshots that were dropped for a newer one. -/
  superseded : List Nat

inductive Pipe.Step (log : Nat → α) : Pipe α → Pipe α → Prop where
  | deliver (p : Pipe α) {last : Nat} (hlast : p.delivered ≤ last) :
      Step log p { p with waiting := p.waiting ++ entries log p.delivered last, delivered := last }
  | install (p : Pipe α) {kept dropped : List (Item α)} {s last : Nat} (hwaiting : p.waiting = kept ++ dropped)
      (hs : p.delivered ≤ s) (hlast : s ≤ last) :
      Step log p {
        fed := p.fed
        waiting := kept ++ .restore s :: entries log s last
        delivered := last
        installs := s :: p.installs
        superseded := p.superseded ++ dropped.filterMap Item.restoreIndex }
  | feed (p : Pipe α) {x : Item α} {rest : List (Item α)} (hwaiting : p.waiting = x :: rest) :
      Step log p { p with fed := p.fed ++ [x], waiting := rest }

/-- A snapshot is in the feed, or made room for a newer one, and everything before that is at or below it. -/
def Pipe.Covers (p : Pipe α) (s : Nat) : Prop :=
  ∃ s' before after, p.fed ++ p.waiting = before ++ .restore s' :: after ∧ (∀ x ∈ before, x.index ≤ s) ∧
    s ≤ s' ∧ (s' = s ∨ s ∈ p.superseded)

/-- Everything that was or will be fed is a complete feed. -/
structure Pipe.Sound (log : Nat → α) (start : Nat) (p : Pipe α) : Prop where
  follows : Follows log start (p.fed ++ p.waiting) p.delivered
  complete : Complete log start p.installs.head? p.delivered (p.fed ++ p.waiting)
  covers : ∀ s ∈ p.installs, p.Covers s

theorem Pipe.sound_start (log : Nat → α) (start : Nat) : Pipe.Sound log start ⟨[], [], start, [], []⟩ :=
  ⟨rfl, (entries_self log start).symm, fun _ h => nomatch h⟩

/-- A new snapshot takes over for the ones it drops. -/
theorem Pipe.Covers.install {p : Pipe α} {kept dropped after' : List (Item α)} {s t : Nat} (h : p.Covers t)
    (hwaiting : p.waiting = kept ++ dropped) (hts : t ≤ s) (last : Nat) (installs : List Nat) :
    Pipe.Covers ⟨p.fed, kept ++ .restore s :: after', last, installs,
      p.superseded ++ dropped.filterMap Item.restoreIndex⟩ t := by
  obtain ⟨t', before, after, heq, hbefore, hle, hor⟩ := h
  rw [hwaiting, ← List.append_assoc, List.append_eq_append_iff] at heq
  -- The snapshot that covers `t` is among the dropped items, or it stays where it is.
  have htaken (hfront : ∀ x ∈ p.fed ++ kept, x ∈ before) (hmem : .restore t' ∈ dropped) :
      Pipe.Covers ⟨p.fed, kept ++ .restore s :: after', last, installs,
        p.superseded ++ dropped.filterMap Item.restoreIndex⟩ t := by
    refine ⟨s, p.fed ++ kept, after', (List.append_assoc ..).symm, fun x hx => hbefore x (hfront x hx), hts, .inr ?_⟩
    rcases hor with rfl | hor
    · exact List.mem_append_right _ (List.mem_filterMap.mpr ⟨_, hmem, rfl⟩)
    · exact List.mem_append_left _ hor
  rcases heq with ⟨mid, rfl, rfl⟩ | ⟨mid, hfront, hback⟩
  · exact htaken (fun x hx => List.mem_append_left _ hx) (by simp)
  · cases mid with
    | nil =>
        rw [List.append_nil] at hfront
        exact htaken (fun x hx => hfront ▸ hx) (hback.subst (motive := (.restore t' ∈ ·)) List.mem_cons_self)
    | cons y mid =>
        obtain ⟨rfl, rfl⟩ := List.cons.inj hback
        refine ⟨t', before, mid ++ .restore s :: after', ?_, hbefore, hle, hor.imp_right (List.mem_append_left _)⟩
        rw [← List.append_assoc, hfront, List.append_assoc]
        rfl

theorem Pipe.Step.sound {start : Nat} {p q : Pipe α} (hstep : p.Step log q) (h : p.Sound log start) :
    q.Sound log start := by
  cases hstep with
  | @deliver last hlast =>
      refine ⟨?_, ?_, fun s hs => ?_⟩
      · rw [← List.append_assoc]
        exact h.follows.append (follows_entries log hlast)
      · rw [← List.append_assoc]
        exact h.complete.extend h.follows hlast
      · obtain ⟨s', before, after, heq, hcover⟩ := h.covers s hs
        refine ⟨s', before, after ++ entries log p.delivered last, ?_, hcover⟩
        rw [← List.append_assoc, heq, List.append_assoc]
        rfl
  | @install kept dropped s last hwaiting hs hlast =>
      have hfollows := h.follows
      rw [hwaiting, ← List.append_assoc] at hfollows
      obtain ⟨v, hkept, hdropped⟩ := hfollows.split
      have hvs : v ≤ s := Nat.le_trans hdropped.le hs
      refine ⟨?_, ⟨p.fed ++ kept, (List.append_assoc ..).symm⟩, fun t ht => ?_⟩
      · rw [← List.append_assoc]
        exact hkept.append ⟨hvs, follows_entries log hlast⟩
      · rcases List.mem_cons.mp ht with rfl | ht
        · refine ⟨t, p.fed ++ kept, _, (List.append_assoc ..).symm, fun x hx => ?_, Nat.le_refl t, .inl rfl⟩
          exact Nat.le_trans (hkept.index_le hx).2 hvs
        · obtain ⟨t', before, after, heq, -, hle, -⟩ := h.covers t ht
          have hmem : .restore t' ∈ p.fed ++ p.waiting := heq ▸ List.mem_append_right _ List.mem_cons_self
          exact (h.covers t ht).install hwaiting (Nat.le_trans hle (Nat.le_trans (h.follows.index_le hmem).2 hs)) last _
  | @feed x rest hwaiting =>
      have heq : p.fed ++ [x] ++ rest = p.fed ++ p.waiting := by rw [hwaiting, List.append_assoc]; rfl
      refine ⟨heq ▸ h.follows, heq ▸ h.complete, fun s hs => ?_⟩
      obtain ⟨s', before, after, hcover⟩ := h.covers s hs
      exact ⟨s', before, after, heq ▸ hcover⟩

/-- Before an entry is fed, each snapshot below it is restored, or a newer one that superseded it. -/
theorem Pipe.Sound.restored {start : Nat} {p : Pipe α} (h : p.Sound log start) {before after : List (Item α)} {i s : Nat}
    {a : α} (hfed : p.fed = before ++ .entry i a :: after) (hs : s ∈ p.installs) (hlt : s < i) :
    ∃ s', .restore s' ∈ before ∧ s ≤ s' ∧ (s' = s ∨ s ∈ p.superseded) := by
  obtain ⟨s', pre, post, heq, hpre, hle, hor⟩ := h.covers s hs
  refine ⟨s', ?_, hle, hor⟩
  rw [hfed, List.append_assoc, List.append_eq_append_iff] at heq
  rcases heq with ⟨mid, rfl, hmid⟩ | ⟨mid, rfl, hmid⟩
  · cases mid with
    | nil => cases hmid
    | cons y mid =>
        -- The entry would stand before the snapshot.
        obtain ⟨rfl, -⟩ := List.cons.inj hmid
        have hle : i ≤ s := hpre (.entry i a) (by simp)
        exact absurd hle (Nat.not_le.mpr hlt)
  · cases mid with
    | nil => cases hmid
    | cons y mid =>
        obtain ⟨rfl, -⟩ := List.cons.inj hmid
        simp

end Feed
