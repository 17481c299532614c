import Arachne.Data.Run
import Arachne.Oracle.Linearizability

/-! # Histories of an atomic store

An atomic store carries operations out one at a time. A client may try an operation several times; the store carries it
out once at most, for one of the attempts. An attempt that is answered with success was carried out before. One that is
told `Timeout` or `SessionExpired`, or is told nothing, may be carried out at any time, also afterwards, or never. One that
is refused is not carried out.

The checker accuses such a store in two cases (`checker_accuses_atomic`). A write that times out counts as complete at
its last reply, so one that is carried out later comes too late for it. And a write that timed out and is then refused
counts as refused, although the first attempt was carried out. In every other case the checker has nothing to say
against it (`checker_spares_atomic`). -/

namespace Arachne.Oracle

open StateMachine (SessionKey)

/-! ## The store -/

/-- One call of a client. -/
structure Attempt where
  call : UInt64
  key : SessionKey
  op : Op
  deriving DecidableEq, Repr

/-- What becomes of a logical operation, in the order in which it happens. -/
inductive Mark where
  /-- The first attempt begins. -/
  | invoked (key : SessionKey)
  /-- The operation takes effect. -/
  | took (key : SessionKey) (op : Op) (result : OpResult)
  deriving DecidableEq, Repr

/-- A reply, and how many marks there were before it. -/
structure Reply where
  key : SessionKey
  ts : UInt64
  result : OpResult
  after : Nat
  deriving DecidableEq, Repr

structure AtomicStore where
  kv : KvState
  attempts : List Attempt
  /-- The calls that were answered. -/
  closed : List UInt64
  /-- The calls that failed before execution. -/
  refused : List UInt64
  /-- The calls that were carried out. -/
  performed : List UInt64
  /-- What was recorded. -/
  events : List Event
  marks : List Mark
  replies : List Reply

/-- The result of the operation, if it took effect. -/
def Mark.effectOn (key : SessionKey) : Mark → Option OpResult
  | .took key' _ result => if key' = key then some result else none
  | .invoked _ => none

def AtomicStore.effect? (s : AtomicStore) (key : SessionKey) : Option OpResult := s.marks.findSome? (Mark.effectOn key)

/-- The invocation, if it is one, has an earlier timestamp. -/
def Event.invokedBefore (ts : UInt64) : Event → Bool
  | .invoke _ _ _ _ ts' => ts' < ts
  | .complete .. => true

/-- Success tells of an effect; an attempt that is refused has none. -/
def AtomicStore.allows (s : AtomicStore) (a : Attempt) : OpResult → Bool
  | .ok value => s.effect? a.key = some (.ok value)
  | .err kind => kind.isUnknownOutcome || !s.performed.contains a.call

def OpResult.isKnownNotApplied : OpResult → Bool
  | .ok _ => false
  | .err kind => kind.isKnownNotApplied

inductive Act where
  | invoke (call : UInt64) (key : SessionKey) (op : Op) (ts : UInt64)
  /-- The store carries the operation out. -/
  | perform (call : UInt64)
  | complete (call ts : UInt64) (result : OpResult) (logId : Option UInt64)
  deriving DecidableEq, Repr

/-- What an action does, if it is possible. The timestamps agree with real time: a call that was invoked before another
one completed has the smaller timestamp. -/
def AtomicStore.exec (s : AtomicStore) : Act → Option AtomicStore
  | .invoke call key op ts =>
    if s.attempts.all fun a => a.call ≠ call ∧ (a.key = key → a.op = op) then
      some { s with
        attempts := s.attempts ++ [{ call, key, op }]
        events := s.events ++ [.invoke call key.clientId key.seqNo op ts]
        marks := if s.attempts.any fun a => a.key = key then s.marks else s.marks ++ [.invoked key] }
    else none
  | .perform call =>
    match s.attempts.find? fun a => a.call = call with
    | none => none
    | some a =>
      if !s.refused.contains call && (s.effect? a.key).isNone then
        some { s with
          kv := (s.kv.apply a.op).1
          performed := s.performed ++ [call]
          marks := s.marks ++ [.took a.key a.op (s.kv.apply a.op).2] }
      else none
  | .complete call ts result logId =>
    match s.attempts.find? fun a => a.call = call with
    | none => none
    | some a =>
      if !s.closed.contains call && s.events.all (Event.invokedBefore ts) && s.allows a result then
        some { s with
          closed := s.closed ++ [call]
          refused := if result.isKnownNotApplied then s.refused ++ [call] else s.refused
          events := s.events ++ [.complete call ts result logId]
          replies := s.replies ++ [{ key := a.key, ts, result, after := s.marks.length }] }
      else none

def AtomicStore.start (initial : KvState) : AtomicStore where
  kv := initial
  attempts := []
  closed := []
  refused := []
  performed := []
  events := []
  marks := []
  replies := []

abbrev AtomicRun (initial : KvState) : List Act → AtomicStore → Prop :=
  Transition.Run (· = AtomicStore.start initial) fun s a s' => s.exec a = some s'

/-! ## Writes that tell -/

def AtomicStore.acknowledged (s : AtomicStore) (key : SessionKey) : Bool :=
  s.replies.any fun r => r.key = key && r.result.isOk

def AtomicStore.lastReply (s : AtomicStore) (key : SessionKey) : Option Reply :=
  (s.replies.filter fun r => r.key = key).getLast?

/-- A write that took effect at this time was acknowledged, or has no reply, or its last reply leaves the outcome open and
came later. -/
def AtomicStore.tells (s : AtomicStore) : Mark × Nat → Bool
  | (.took key op _, t) =>
    !op.isLoggedOp || s.acknowledged key ||
      (s.lastReply key).all fun r => !r.result.isKnownNotApplied && t < r.after
  | (.invoked _, _) => true

/-- No reply hides a write from the checker. -/
def AtomicStore.Telling (s : AtomicStore) : Prop := ∀ m ∈ s.marks.zipIdx, s.tells m

instance decidableTelling (s : AtomicStore) : Decidable s.Telling :=
  inferInstanceAs (Decidable (∀ m ∈ s.marks.zipIdx, s.tells m))

/-! ## The marks -/

variable {initial : KvState} {s s' : AtomicStore} {a : Attempt} {call ts : UInt64} {key : SessionKey} {op : Op}
  {result : OpResult} {logId : Option UInt64}

/-- What the effects make of the initial state. -/
def replay (initial : KvState) (marks : List Mark) : KvState :=
  marks.foldl (fun kv m =>
    match m with
    | .took _ op _ => (kv.apply op).1
    | .invoked _ => kv) initial

/-- The operation was invoked at this time. -/
def InvokedAt (marks : List Mark) (key : SessionKey) (t : Nat) : Prop := marks[t]? = some (.invoked key)

/-- The operation took effect at this time. -/
def TookAt (marks : List Mark) (key : SessionKey) (op : Op) (result : OpResult) (t : Nat) : Prop :=
  marks[t]? = some (.took key op result)

theorem getElem?_snoc {α : Type} {l : List α} {x y : α} {t : Nat} :
    (l ++ [x])[t]? = some y ↔ l[t]? = some y ∨ t = l.length ∧ x = y := by
  rcases Nat.lt_trichotomy t l.length with hlt | rfl | hgt
  · rw [List.getElem?_append_left hlt]
    exact ⟨.inl, fun h => h.resolve_right fun h => absurd h.1 (Nat.ne_of_lt hlt)⟩
  · simp
  · rw [List.getElem?_eq_none (by rw [List.length_append]; exact hgt), List.getElem?_eq_none (Nat.le_of_lt hgt)]
    simp [Nat.ne_of_gt hgt]

section

variable {marks : List Mark} {k : SessionKey} {o : Op} {r : OpResult} {t : Nat}

theorem InvokedAt.lt (h : InvokedAt marks key t) : t < marks.length := (List.getElem?_eq_some_iff.mp h).1

theorem TookAt.lt (h : TookAt marks key op result t) : t < marks.length := (List.getElem?_eq_some_iff.mp h).1

theorem invokedAt_invoked : InvokedAt (marks ++ [.invoked k]) key t ↔ InvokedAt marks key t ∨ t = marks.length ∧ k = key := by
  rw [InvokedAt, getElem?_snoc, Mark.invoked.injEq]
  rfl

theorem tookAt_invoked : TookAt (marks ++ [.invoked k]) key op result t ↔ TookAt marks key op result t := by
  rw [TookAt, getElem?_snoc]
  exact ⟨fun h => h.resolve_right fun hnew => Mark.noConfusion hnew.2, .inl⟩

theorem invokedAt_took : InvokedAt (marks ++ [.took k o r]) key t ↔ InvokedAt marks key t := by
  rw [InvokedAt, getElem?_snoc]
  exact ⟨fun h => h.resolve_right fun hnew => Mark.noConfusion hnew.2, .inl⟩

theorem tookAt_took : TookAt (marks ++ [.took k o r]) key op result t ↔
    TookAt marks key op result t ∨ t = marks.length ∧ k = key ∧ o = op ∧ r = result := by
  rw [TookAt, getElem?_snoc, Mark.took.injEq]
  rfl

theorem replay_invoked : replay initial (marks ++ [.invoked k]) = replay initial marks := by
  rw [replay, List.foldl_append]
  rfl

theorem replay_took : replay initial (marks ++ [.took k o r]) = ((replay initial marks).apply o).1 := by
  rw [replay, List.foldl_append]
  rfl

end

/-- What the marks, the attempts and the state have to do with each other. -/
structure AtomicStore.Marked (initial : KvState) (s : AtomicStore) : Prop where
  kv : s.kv = replay initial s.marks
  result : ∀ t key op r, TookAt s.marks key op r t → ((replay initial (s.marks.take t)).apply op).2 = r
  invokedOnce : ∀ t t' key, InvokedAt s.marks key t → InvokedAt s.marks key t' → t = t'
  tookOnce : ∀ t t' key op op' r r', TookAt s.marks key op r t → TookAt s.marks key op' r' t' → t = t'
  invoked : ∀ a ∈ s.attempts, ∃ t, InvokedAt s.marks a.key t
  attempted : ∀ t key, InvokedAt s.marks key t → ∃ a ∈ s.attempts, a.key = key
  took : ∀ t key op r, TookAt s.marks key op r t →
    (∃ t' < t, InvokedAt s.marks key t') ∧ ∃ a ∈ s.attempts, a.key = key ∧ a.op = op
  sameOp : ∀ a ∈ s.attempts, ∀ b ∈ s.attempts, a.key = b.key → a.op = b.op

theorem AtomicStore.effect?_eq_some (h : s.effect? key = some result) : ∃ t op, TookAt s.marks key op result t := by
  obtain ⟨m, hm, heffect⟩ := List.exists_of_findSome?_eq_some h
  obtain ⟨t, ht⟩ := List.mem_iff_getElem?.mp hm
  cases m with
  | invoked key' => cases heffect
  | took key' op r =>
      obtain ⟨rfl, hr⟩ := Option.ite_none_right_eq_some.mp heffect
      obtain rfl := Option.some.inj hr
      exact ⟨t, op, ht⟩

theorem AtomicStore.effect?_eq_none (h : s.effect? key = none) (t : Nat) (op : Op) (r : OpResult) :
    ¬ TookAt s.marks key op r t := by
  intro ht
  have hnone := List.findSome?_eq_none_iff.mp h _ (List.mem_of_getElem? ht)
  rw [Mark.effectOn, if_pos rfl] at hnone
  cases hnone

/-- The attempts of one operation are for one command. -/
theorem sameOp_snoc {attempts : List Attempt} (h : ∀ b ∈ attempts, ∀ c ∈ attempts, b.key = c.key → b.op = c.op)
    (hsame : ∀ b ∈ attempts, b.key = a.key → b.op = a.op) :
    ∀ b ∈ attempts ++ [a], ∀ c ∈ attempts ++ [a], b.key = c.key → b.op = c.op := by
  intro b hb c hc heq
  rcases List.mem_append.mp hb with hb | hb <;> rcases List.mem_append.mp hc with hc | hc
  · exact h b hb c hc heq
  · rw [List.mem_singleton.mp hc] at heq ⊢
    exact hsame b hb heq
  · rw [List.mem_singleton.mp hb] at heq ⊢
    exact (hsame c hc heq.symm).symm
  · rw [List.mem_singleton.mp hb, List.mem_singleton.mp hc]

theorem exists_mem_snoc {attempts : List Attempt} {P : Attempt → Prop} (h : ∃ b ∈ attempts, P b) :
    ∃ b ∈ attempts ++ [a], P b := by
  obtain ⟨b, hb, hP⟩ := h
  exact ⟨b, List.mem_append_left _ hb, hP⟩

/-- Another attempt of an operation leaves no mark. -/
theorem AtomicStore.Marked.retry (h : s.Marked initial) (hsame : ∀ b ∈ s.attempts, b.key = a.key → b.op = a.op)
    (hkey : ∃ b ∈ s.attempts, b.key = a.key) (hkv : s'.kv = s.kv) (hattempts : s'.attempts = s.attempts ++ [a])
    (hmarks : s'.marks = s.marks) : s'.Marked initial := by
  refine ⟨?_, hmarks ▸ h.result, hmarks ▸ h.invokedOnce, hmarks ▸ h.tookOnce, ?_, ?_, ?_,
    hattempts ▸ sameOp_snoc h.sameOp hsame⟩
  · rw [hkv, hmarks]
    exact h.kv
  · rw [hattempts, hmarks]
    intro c hc
    rcases List.mem_append.mp hc with hc | hc
    · exact h.invoked c hc
    · obtain ⟨b, hb, hkey⟩ := hkey
      rw [List.mem_singleton.mp hc, ← hkey]
      exact h.invoked b hb
  · rw [hattempts, hmarks]
    exact fun t key ht => exists_mem_snoc (h.attempted t key ht)
  · rw [hattempts, hmarks]
    exact fun t key op r ht => ⟨(h.took t key op r ht).1, exists_mem_snoc (h.took t key op r ht).2⟩

/-- The first attempt of an operation leaves a mark. -/
theorem AtomicStore.Marked.invoke (h : s.Marked initial) (hsame : ∀ b ∈ s.attempts, b.key = a.key → b.op = a.op)
    (hkey : ∀ b ∈ s.attempts, b.key ≠ a.key) (hkv : s'.kv = s.kv) (hattempts : s'.attempts = s.attempts ++ [a])
    (hmarks : s'.marks = s.marks ++ [.invoked a.key]) : s'.Marked initial := by
  have hnew (t : Nat) : ¬ InvokedAt s.marks a.key t := by
    intro ht
    obtain ⟨b, hb, hbkey⟩ := h.attempted t a.key ht
    exact hkey b hb hbkey
  refine ⟨?_, ?_, ?_, ?_, ?_, ?_, ?_, hattempts ▸ sameOp_snoc h.sameOp hsame⟩
  · rw [hkv, hmarks, replay_invoked]
    exact h.kv
  · rw [hmarks]
    intro t key op r ht
    rw [tookAt_invoked] at ht
    rw [List.take_append_of_le_length (Nat.le_of_lt ht.lt)]
    exact h.result t key op r ht
  · rw [hmarks]
    intro t t' key ht ht'
    rw [invokedAt_invoked] at ht ht'
    rcases ht with ht | ⟨rfl, rfl⟩ <;> rcases ht' with ht' | ⟨rfl, hkey'⟩
    · exact h.invokedOnce t t' key ht ht'
    · exact absurd (hkey' ▸ ht) (hnew t)
    · exact absurd ht' (hnew t')
    · rfl
  · rw [hmarks]
    intro t t' key op op' r r' ht ht'
    rw [tookAt_invoked] at ht ht'
    exact h.tookOnce t t' key op op' r r' ht ht'
  · rw [hattempts, hmarks]
    intro c hc
    rcases List.mem_append.mp hc with hc | hc
    · obtain ⟨t, ht⟩ := h.invoked c hc
      exact ⟨t, invokedAt_invoked.mpr (.inl ht)⟩
    · rw [List.mem_singleton.mp hc]
      exact ⟨_, invokedAt_invoked.mpr (.inr ⟨rfl, rfl⟩)⟩
  · rw [hattempts, hmarks]
    intro t key ht
    rcases invokedAt_invoked.mp ht with ht | ⟨rfl, rfl⟩
    · exact exists_mem_snoc (h.attempted t key ht)
    · exact ⟨a, List.mem_append_right _ (List.mem_singleton_self a), rfl⟩
  · rw [hattempts, hmarks]
    intro t key op r ht
    obtain ⟨⟨t', hlt, ht'⟩, hattempt⟩ := h.took t key op r (tookAt_invoked.mp ht)
    exact ⟨⟨t', hlt, invokedAt_invoked.mpr (.inl ht')⟩, exists_mem_snoc hattempt⟩

/-- An operation takes effect. -/
theorem AtomicStore.Marked.perform (h : s.Marked initial) (ha : a ∈ s.attempts) (hnone : s.effect? a.key = none)
    (hkv : s'.kv = (s.kv.apply a.op).1) (hattempts : s'.attempts = s.attempts)
    (hmarks : s'.marks = s.marks ++ [.took a.key a.op (s.kv.apply a.op).2]) : s'.Marked initial := by
  have hnew := AtomicStore.effect?_eq_none hnone
  refine ⟨?_, ?_, ?_, ?_, ?_, ?_, ?_, hattempts ▸ h.sameOp⟩
  · rw [hkv, hmarks, replay_took, ← h.kv]
  · rw [hmarks]
    intro t key op r ht
    rcases tookAt_took.mp ht with ht | ⟨rfl, rfl, rfl, rfl⟩
    · rw [List.take_append_of_le_length (Nat.le_of_lt ht.lt)]
      exact h.result t key op r ht
    · rw [List.take_left, ← h.kv]
  · rw [hmarks]
    intro t t' key ht ht'
    exact h.invokedOnce t t' key (invokedAt_took.mp ht) (invokedAt_took.mp ht')
  · rw [hmarks]
    intro t t' key op op' r r' ht ht'
    rw [tookAt_took] at ht ht'
    rcases ht with ht | ⟨rfl, rfl, rfl, rfl⟩ <;> rcases ht' with ht' | ⟨rfl, hkey, -, -⟩
    · exact h.tookOnce t t' key op op' r r' ht ht'
    · exact absurd (hkey ▸ ht) (hnew _ _ _)
    · exact absurd ht' (hnew _ _ _)
    · rfl
  · rw [hattempts, hmarks]
    intro b hb
    obtain ⟨t, ht⟩ := h.invoked b hb
    exact ⟨t, invokedAt_took.mpr ht⟩
  · rw [hattempts, hmarks]
    exact fun t key ht => h.attempted t key (invokedAt_took.mp ht)
  · rw [hattempts, hmarks]
    intro t key op r ht
    rcases tookAt_took.mp ht with ht | ⟨rfl, rfl, rfl, rfl⟩
    · obtain ⟨⟨t', hlt, ht'⟩, hattempt⟩ := h.took t key op r ht
      exact ⟨⟨t', hlt, invokedAt_took.mpr ht'⟩, hattempt⟩
    · obtain ⟨t', ht'⟩ := h.invoked a ha
      exact ⟨⟨t', ht'.lt, invokedAt_took.mpr ht'⟩, a, ha, rfl, rfl⟩

/-! ## The groups -/

theorem le_maxTs (ts : UInt64) : ts ≤ maxTs := by
  rw [UInt64.le_iff_toNat_le]
  have hmax : maxTs.toNat = 2 ^ 64 - 1 := rfl
  have hlt := ts.toNat_lt
  omega

theorem min_maxTs (ts : UInt64) : min maxTs ts = ts := by
  rcases Std.min_eq_or (a := maxTs) (b := ts) with hmax | hts
  · refine UInt64.le_antisymm Std.min_le_right ?_
    rw [hmax]
    exact le_maxTs ts
  · exact hts

/-- What the checker's groups have to do with the attempts and the replies. -/
structure AtomicStore.Grouped (s : AtomicStore) : Prop where
  calls : ∀ a ∈ s.attempts, (callKeys s.events)[a.call]? = some a.key
  completed : ∀ call ts result logId, Event.complete call ts result logId ∈ s.events → ∃ a ∈ s.attempts, a.call = call
  replied : ∀ r ∈ s.replies, ∃ a ∈ s.attempts, a.key = r.key
  grouped : ∀ a ∈ s.attempts, ∃ g, (groupEvents s.events)[a.key]? = some g
  op : ∀ (key : SessionKey) (g : Group), (groupEvents s.events)[key]? = some g →
    ∃ a ∈ s.attempts, a.key = key ∧ g.op = some a.op
  stamp : ∀ (key : SessionKey) (g : Group), (groupEvents s.events)[key]? = some g →
    ∃ ts call client seq op, g.invokeTs = some ts ∧ Event.invoke call client seq op ts ∈ s.events
  completes : ∀ (key : SessionKey) (g : Group), (groupEvents s.events)[key]? = some g →
    g.completes = (s.replies.filter fun r => r.key = key).map fun r => (r.ts, r.result)

/-- A call that is new has no completions, so its invocation adds to the group of its operation only. -/
theorem AtomicStore.Grouped.groupEvents_snoc_invoke (h : s.Grouped) {ts : UInt64}
    (hfresh : ∀ b ∈ s.attempts, b.call ≠ a.call) :
    groupEvents (s.events ++ [.invoke a.call a.key.clientId a.key.seqNo a.op ts]) =
      (groupEvents s.events).update a.key fun g => g.addInvoke a.call a.op ts := by
  refine groupEvents_invoke fun ts' result logId hmem => ?_
  obtain ⟨b, hb, hcall⟩ := h.completed _ _ _ _ hmem
  exact hfresh b hb hcall

/-- A completion adds to the group of its operation, which exists; the others stay. -/
theorem AtomicStore.Grouped.group_snoc_complete (h : s.Grouped) {ts : UInt64} {result : OpResult} {logId : Option UInt64}
    {g : Group} (ha : a ∈ s.attempts)
    (hg : (groupEvents (s.events ++ [.complete a.call ts result logId]))[key]? = some g) :
    (∃ own, (groupEvents s.events)[key]? = some own ∧ key = a.key ∧ g = own.addComplete ts result logId) ∨
      key ≠ a.key ∧ (groupEvents s.events)[key]? = some g := by
  obtain ⟨own, hown⟩ := h.grouped a ha
  rw [groupEvents_complete (h.calls a ha), getElem?_update] at hg
  split_ifs at hg with hkey
  · rw [hown] at hg
    exact .inl ⟨own, hkey ▸ hown, hkey, (Option.some.inj hg).symm⟩
  · exact .inr ⟨hkey, hg⟩

section Extended

variable (key : SessionKey) (call ts : UInt64) (op : Op)

/-- The group of an operation once one more invocation has been read: a new one if the operation had none. -/
def AtomicStore.extended (s : AtomicStore) : Group :=
  ((groupEvents s.events)[key]?.getD .default).addInvoke call op ts

theorem AtomicStore.Grouped.op_extended (h : s.Grouped) (hsame : ∀ b ∈ s.attempts, b.key = key → b.op = op) :
    (s.extended key call ts op).op = some op := by
  unfold AtomicStore.extended
  cases hgroup : (groupEvents s.events)[key]? with
  | none => rfl
  | some g =>
      obtain ⟨b, hb, hkey, hop⟩ := h.op key g hgroup
      show g.op.or (some op) = _
      rw [hop, hsame b hb hkey]
      rfl

/-- It begins with this invocation, or with one read before. -/
theorem AtomicStore.Grouped.stamp_extended (h : s.Grouped) :
    (s.extended key call ts op).invokeTs = some ts ∨
      ∃ ts' call' client seq op', (s.extended key call ts op).invokeTs = some ts' ∧
        Event.invoke call' client seq op' ts' ∈ s.events := by
  unfold AtomicStore.extended
  cases hgroup : (groupEvents s.events)[key]? with
  | none => exact .inl (congrArg some (min_maxTs ts))
  | some g =>
      obtain ⟨ts', call', client, seq, op', hts', hmem⟩ := h.stamp key g hgroup
      have hmin : (g.addInvoke call op ts).invokeTs = some (min ts' ts) := by
        rw [Group.addInvoke, hts']
        rfl
      rw [Option.getD_some, hmin]
      rcases Std.min_eq_or (a := ts') (b := ts) with heq | heq
      · exact .inr ⟨ts', call', client, seq, op', congrArg some heq, hmem⟩
      · exact .inl (congrArg some heq)

theorem AtomicStore.Grouped.completes_extended (h : s.Grouped) :
    (s.extended key call ts op).completes = (s.replies.filter fun r => r.key = key).map fun r => (r.ts, r.result) := by
  unfold AtomicStore.extended
  cases hgroup : (groupEvents s.events)[key]? with
  | none =>
      -- Nobody has been told anything about an operation that was not attempted.
      have hnone : (s.replies.filter fun r => r.key = key) = [] := by
        rw [List.filter_eq_nil_iff]
        intro r hr hkey
        obtain ⟨b, hb, hbkey⟩ := h.replied r hr
        obtain ⟨g, hg⟩ := h.grouped b hb
        rw [hbkey, of_decide_eq_true hkey, hgroup] at hg
        cases hg
      rw [hnone]
      rfl
  | some g => exact h.completes key g hgroup

end Extended

theorem AtomicStore.Grouped.invoke (h : s.Grouped) {ts : UInt64} (hfresh : ∀ b ∈ s.attempts, b.call ≠ a.call)
    (hsame : ∀ b ∈ s.attempts, b.key = a.key → b.op = a.op) (hreplies : s'.replies = s.replies)
    (hattempts : s'.attempts = s.attempts ++ [a])
    (hevents : s'.events = s.events ++ [.invoke a.call a.key.clientId a.key.seqNo a.op ts]) : s'.Grouped := by
  have hgroup (key : SessionKey) : (groupEvents s'.events)[key]? =
      if key = a.key then some (s.extended a.key a.call ts a.op) else (groupEvents s.events)[key]? := by
    rw [hevents, h.groupEvents_snoc_invoke hfresh, getElem?_update]
    rfl
  have hold {e : Event} (he : e ∈ s.events) : e ∈ s'.events := hevents ▸ List.mem_append_left _ he
  refine ⟨?_, ?_, ?_, ?_, ?_, ?_, ?_⟩
  · rw [hattempts, hevents, callKeys_invoke]
    intro b hb
    rw [OrdMap.getElem?_insert]
    rcases List.mem_append.mp hb with hb | hb
    · rw [if_neg (hfresh b hb)]
      exact h.calls b hb
    · rw [List.mem_singleton.mp hb, if_pos rfl]
  · rw [hattempts, hevents]
    intro call ts' result logId hmem
    rcases List.mem_append.mp hmem with hmem | hmem
    · exact exists_mem_snoc (h.completed call ts' result logId hmem)
    · cases List.mem_singleton.mp hmem
  · rw [hattempts, hreplies]
    exact fun r hr => exists_mem_snoc (h.replied r hr)
  · rw [hattempts]
    intro b hb
    rw [hgroup]
    split_ifs with hkey
    · exact ⟨_, rfl⟩
    · rcases List.mem_append.mp hb with hb | hb
      · exact h.grouped b hb
      · rw [List.mem_singleton.mp hb] at hkey
        exact absurd rfl hkey
  · rw [hattempts]
    intro key g hg
    rw [hgroup] at hg
    split_ifs at hg with hkey
    · obtain rfl := Option.some.inj hg
      exact ⟨a, List.mem_append_right _ (List.mem_singleton_self a), hkey.symm, h.op_extended _ _ _ _ hsame⟩
    · exact exists_mem_snoc (h.op key g hg)
  · intro key g hg
    rw [hgroup] at hg
    split_ifs at hg with hkey
    · obtain rfl := Option.some.inj hg
      rcases h.stamp_extended a.key a.call ts a.op with hts | ⟨ts', call, client, seq, op, hts', hmem⟩
      · exact ⟨ts, _, _, _, _, hts, hevents ▸ List.mem_append_right _ (List.mem_singleton_self _)⟩
      · exact ⟨ts', call, client, seq, op, hts', hold hmem⟩
    · obtain ⟨ts', call, client, seq, op, hts', hmem⟩ := h.stamp key g hg
      exact ⟨ts', call, client, seq, op, hts', hold hmem⟩
  · rw [hreplies]
    intro key g hg
    rw [hgroup] at hg
    split_ifs at hg with hkey
    · obtain rfl := Option.some.inj hg
      rw [hkey]
      exact h.completes_extended a.key a.call ts a.op
    · exact h.completes key g hg

theorem AtomicStore.Grouped.complete (h : s.Grouped) {ts : UInt64} {result : OpResult} {logId : Option UInt64} {after : Nat}
    (ha : a ∈ s.attempts) (hreplies : s'.replies = s.replies ++ [{ key := a.key, ts, result, after }])
    (hattempts : s'.attempts = s.attempts) (hevents : s'.events = s.events ++ [.complete a.call ts result logId]) :
    s'.Grouped := by
  refine ⟨?_, ?_, ?_, ?_, ?_, ?_, ?_⟩
  · rw [hattempts, hevents, callKeys_complete]
    exact h.calls
  · rw [hattempts, hevents]
    intro call ts' result' logId' hmem
    rcases List.mem_append.mp hmem with hmem | hmem
    · exact h.completed call ts' result' logId' hmem
    · cases List.mem_singleton.mp hmem
      exact ⟨a, ha, rfl⟩
  · rw [hattempts, hreplies]
    intro r hr
    rcases List.mem_append.mp hr with hr | hr
    · exact h.replied r hr
    · rw [List.mem_singleton.mp hr]
      exact ⟨a, ha, rfl⟩
  · rw [hattempts, hevents, groupEvents_complete (h.calls a ha)]
    intro b hb
    rw [getElem?_update]
    split_ifs with hkey
    · exact ⟨_, rfl⟩
    · exact h.grouped b hb
  · rw [hattempts, hevents]
    intro key g hg
    rcases h.group_snoc_complete ha hg with ⟨own, hown, -, rfl⟩ | ⟨-, hg⟩
    · exact h.op key own hown
    · exact h.op key g hg
  · rw [hevents]
    intro key g hg
    have hstamp : ∃ ts' call client seq op, g.invokeTs = some ts' ∧ Event.invoke call client seq op ts' ∈ s.events := by
      rcases h.group_snoc_complete ha hg with ⟨own, hown, -, rfl⟩ | ⟨-, hg⟩
      · exact h.stamp key own hown
      · exact h.stamp key g hg
    obtain ⟨ts', call, client, seq, op, hts', hmem⟩ := hstamp
    exact ⟨ts', call, client, seq, op, hts', List.mem_append_left _ hmem⟩
  · rw [hreplies, hevents]
    intro key g hg
    rw [List.filter_append, List.map_append]
    rcases h.group_snoc_complete ha hg with ⟨own, hown, rfl, rfl⟩ | ⟨hkey, hg⟩
    · rw [List.filter_cons, if_pos (decide_eq_true rfl), ← h.completes a.key own hown]
      rfl
    · rw [List.filter_cons, if_neg (by simpa using Ne.symm hkey), List.filter_nil, List.map_nil, List.append_nil]
      exact h.completes key g hg

/-! ## The replies -/

/-- What is known when a reply is given. -/
structure AtomicStore.Timed (s : AtomicStore) : Prop where
  after : ∀ r ∈ s.replies, r.after ≤ s.marks.length
  invoked : ∀ r ∈ s.replies, ∃ t < r.after, InvokedAt s.marks r.key t
  took : ∀ r ∈ s.replies, r.result.isOk → ∃ t < r.after, ∃ op, TookAt s.marks r.key op r.result t
  stamp : ∀ r ∈ s.replies, ∀ (key : SessionKey) (t : Nat) (g : Group) (ts : UInt64), t < r.after →
    InvokedAt s.marks key t → (groupEvents s.events)[key]? = some g → g.invokeTs = some ts → ts < r.ts

/-- A step that gives no reply: there may be more marks, and earlier invocations. -/
theorem AtomicStore.Timed.mono (h : s.Timed) (hreplies : s'.replies = s.replies) {more : List Mark}
    (hmarks : s'.marks = s.marks ++ more)
    (hstamp : ∀ (key : SessionKey) (t : Nat) (g' : Group) (ts' : UInt64), InvokedAt s.marks key t →
      (groupEvents s'.events)[key]? = some g' → g'.invokeTs = some ts' →
      ∃ g ts, (groupEvents s.events)[key]? = some g ∧ g.invokeTs = some ts ∧ ts' ≤ ts) : s'.Timed := by
  have hsame {t : Nat} (ht : t < s.marks.length) : s'.marks[t]? = s.marks[t]? := by
    rw [hmarks, List.getElem?_append_left ht]
  refine ⟨?_, ?_, ?_, ?_⟩ <;> rw [hreplies]
  · intro r hr
    rw [hmarks, List.length_append]
    exact Nat.le_add_right_of_le (h.after r hr)
  · intro r hr
    obtain ⟨t, hlt, ht⟩ := h.invoked r hr
    exact ⟨t, hlt, (hsame ht.lt).trans ht⟩
  · intro r hr hok
    obtain ⟨t, hlt, op, ht⟩ := h.took r hr hok
    exact ⟨t, hlt, op, (hsame ht.lt).trans ht⟩
  · intro r hr key t g' ts' hlt ht hg' hts'
    have hold : InvokedAt s.marks key t := (hsame (Nat.lt_of_lt_of_le hlt (h.after r hr))).symm.trans ht
    obtain ⟨g, ts, hg, hts, hle⟩ := hstamp key t g' ts' hold hg' hts'
    exact UInt64.lt_of_le_of_lt hle (h.stamp r hr key t g ts hlt hold hg hts)

theorem AtomicStore.Timed.invoke (h : s.Timed) (hmarked : s.Marked initial) (hgrouped : s.Grouped) {ts : UInt64}
    (hfresh : ∀ b ∈ s.attempts, b.call ≠ a.call) (hreplies : s'.replies = s.replies) {more : List Mark}
    (hmarks : s'.marks = s.marks ++ more)
    (hevents : s'.events = s.events ++ [.invoke a.call a.key.clientId a.key.seqNo a.op ts]) : s'.Timed := by
  refine h.mono hreplies hmarks fun key t g' ts' ht hg' hts' => ?_
  obtain ⟨b, hb, rfl⟩ := hmarked.attempted t key ht
  obtain ⟨g, hg⟩ := hgrouped.grouped b hb
  obtain ⟨ts₀, _, _, _, _, hts₀, -⟩ := hgrouped.stamp b.key g hg
  refine ⟨g, ts₀, hg, hts₀, ?_⟩
  rw [hevents, hgrouped.groupEvents_snoc_invoke hfresh, getElem?_update] at hg'
  split_ifs at hg' with hkey
  · -- The invocation moves the beginning of its own operation forward, if it moves it.
    rw [← hkey, hg] at hg'
    obtain rfl := Option.some.inj hg'
    have hmin : min (g.invokeTs.getD maxTs) ts = ts' := Option.some.inj hts'
    rw [hts₀, Option.getD_some] at hmin
    rw [← hmin]
    exact Std.min_le_left
  · rw [hg] at hg'
    obtain rfl := Option.some.inj hg'
    rw [hts₀] at hts'
    rw [Option.some.inj hts']
    exact UInt64.le_refl _

theorem AtomicStore.Timed.complete (h : s.Timed) (hmarked : s.Marked initial) (hgrouped : s.Grouped) {ts : UInt64}
    {result : OpResult} {logId : Option UInt64} (ha : a ∈ s.attempts)
    (hbefore : s.events.all (Event.invokedBefore ts) = true) (hallows : s.allows a result = true)
    (hreplies : s'.replies = s.replies ++ [{ key := a.key, ts, result, after := s.marks.length }])
    (hmarks : s'.marks = s.marks) (hevents : s'.events = s.events ++ [.complete a.call ts result logId]) : s'.Timed := by
  -- A completion leaves the beginnings of the operations as they are.
  have hstamp (key : SessionKey) (g' : Group) (hg' : (groupEvents s'.events)[key]? = some g') :
      ∃ g, (groupEvents s.events)[key]? = some g ∧ g'.invokeTs = g.invokeTs := by
    rw [hevents] at hg'
    rcases hgrouped.group_snoc_complete ha hg' with ⟨own, hown, -, rfl⟩ | ⟨-, hg⟩
    · exact ⟨own, hown, rfl⟩
    · exact ⟨g', hg, rfl⟩
  refine ⟨?_, ?_, ?_, ?_⟩ <;> rw [hreplies, hmarks] <;> intro r hr <;>
    rcases List.mem_append.mp hr with hr | hr
  · exact h.after r hr
  · rw [List.mem_singleton.mp hr]
  · exact h.invoked r hr
  · rw [List.mem_singleton.mp hr]
    obtain ⟨t, ht⟩ := hmarked.invoked a ha
    exact ⟨t, ht.lt, ht⟩
  · exact h.took r hr
  · rw [List.mem_singleton.mp hr]
    intro hok
    cases result with
    | err kind => cases hok
    | ok value =>
        obtain ⟨t, op, ht⟩ := AtomicStore.effect?_eq_some (of_decide_eq_true hallows)
        exact ⟨t, ht.lt, op, ht⟩
  · intro key t g' ts' hlt ht hg' hts'
    obtain ⟨g, hg, heq⟩ := hstamp key g' hg'
    exact h.stamp r hr key t g ts' hlt ht hg (heq ▸ hts')
  · rw [List.mem_singleton.mp hr]
    intro key t g' ts' _ _ hg' hts'
    obtain ⟨g, hg, heq⟩ := hstamp key g' hg'
    obtain ⟨ts₀, _, _, _, _, hts₀, hmem⟩ := hgrouped.stamp key g hg
    rw [heq, hts₀] at hts'
    obtain rfl := Option.some.inj hts'
    exact of_decide_eq_true (List.all_eq_true.mp hbefore _ hmem)

/-! ## Runs -/

structure AtomicStore.Sound (initial : KvState) (s : AtomicStore) : Prop where
  marked : s.Marked initial
  grouped : s.Grouped
  timed : s.Timed

theorem sound_start (initial : KvState) : (AtomicStore.start initial).Sound initial := by
  have hinvoked (key : SessionKey) (t : Nat) : ¬ InvokedAt [] key t := fun h => Nat.not_lt_zero t h.lt
  have htook (key : SessionKey) (op : Op) (r : OpResult) (t : Nat) : ¬ TookAt [] key op r t :=
    fun h => Nat.not_lt_zero t h.lt
  have hgroup (key : SessionKey) (g : Group) : ¬ (groupEvents [])[key]? = some g := by
    rw [groupEvents, List.foldl_nil, Std.ExtTreeMap.getElem?_empty]
    exact fun h => by cases h
  have hattempt {P : Attempt → Prop} : ∀ a ∈ ([] : List Attempt), P a := fun _ ha => absurd ha List.not_mem_nil
  have hreply {P : Reply → Prop} : ∀ r ∈ ([] : List Reply), P r := fun _ hr => absurd hr List.not_mem_nil
  refine ⟨⟨rfl, ?_, ?_, ?_, hattempt, ?_, ?_, hattempt⟩, ⟨hattempt, ?_, hreply, hattempt, ?_, ?_, ?_⟩,
    ⟨hreply, hreply, hreply, hreply⟩⟩
  · exact fun t key op r ht => absurd ht (htook key op r t)
  · exact fun t _ key ht => absurd ht (hinvoked key t)
  · exact fun t _ key op _ r _ ht => absurd ht (htook key op r t)
  · exact fun t key ht => absurd ht (hinvoked key t)
  · exact fun t key op r ht => absurd ht (htook key op r t)
  · exact fun _ _ _ _ he => absurd he List.not_mem_nil
  · exact fun key g hg => absurd hg (hgroup key g)
  · exact fun key g hg => absurd hg (hgroup key g)
  · exact fun key g hg => absurd hg (hgroup key g)

theorem AtomicStore.Sound.step (h : s.Sound initial) {act : Act} (hexec : s.exec act = some s') : s'.Sound initial := by
  cases act with
  | invoke call key op ts =>
      obtain ⟨hall, hexec⟩ := Option.ite_none_right_eq_some.mp hexec
      obtain rfl := Option.some.inj hexec
      have hall' (b : Attempt) (hb : b ∈ s.attempts) : b.call ≠ call ∧ (b.key = key → b.op = op) :=
        of_decide_eq_true (List.all_eq_true.mp hall b hb)
      refine ⟨?_, h.grouped.invoke (a := ⟨call, key, op⟩) (fun b hb => (hall' b hb).1) (fun b hb => (hall' b hb).2)
        rfl rfl rfl, ?_⟩
      · have hsame (b : Attempt) (hb : b ∈ s.attempts) := (hall' b hb).2
        split_ifs with hany
        · obtain ⟨b, hb, hkey⟩ := List.any_eq_true.mp hany
          exact h.marked.retry (a := ⟨call, key, op⟩) hsame ⟨b, hb, of_decide_eq_true hkey⟩ rfl rfl rfl
        · refine h.marked.invoke (a := ⟨call, key, op⟩) hsame (fun b hb hkey => ?_) rfl rfl rfl
          exact hany (List.any_eq_true.mpr ⟨b, hb, decide_eq_true hkey⟩)
      · have hfresh (b : Attempt) (hb : b ∈ s.attempts) := (hall' b hb).1
        split_ifs
        · exact h.timed.invoke (a := ⟨call, key, op⟩) h.marked h.grouped hfresh rfl (List.append_nil _).symm rfl
        · exact h.timed.invoke (a := ⟨call, key, op⟩) h.marked h.grouped hfresh rfl rfl rfl
  | perform call =>
      simp only [AtomicStore.exec] at hexec
      split at hexec
      · cases hexec
      · next a hfind =>
        have ha := List.mem_of_find?_eq_some hfind
        obtain ⟨hpossible, hexec⟩ := Option.ite_none_right_eq_some.mp hexec
        obtain rfl := Option.some.inj hexec
        have hnone := Option.isNone_iff_eq_none.mp (Bool.and_eq_true _ _ ▸ hpossible).2
        refine ⟨h.marked.perform ha hnone rfl rfl rfl, ⟨h.grouped.calls, h.grouped.completed, h.grouped.replied,
          h.grouped.grouped, h.grouped.op, h.grouped.stamp, h.grouped.completes⟩, ?_⟩
        exact h.timed.mono rfl rfl fun key t g' ts' _ hg hts => ⟨g', ts', hg, hts, UInt64.le_refl _⟩
  | complete call ts result logId =>
      simp only [AtomicStore.exec] at hexec
      split at hexec
      · cases hexec
      · next a hfind =>
        have ha := List.mem_of_find?_eq_some hfind
        have hcall := List.find?_some hfind
        obtain rfl : a.call = call := of_decide_eq_true hcall
        obtain ⟨hpossible, hexec⟩ := Option.ite_none_right_eq_some.mp hexec
        obtain rfl := Option.some.inj hexec
        rw [Bool.and_eq_true, Bool.and_eq_true] at hpossible
        obtain ⟨⟨-, hbefore⟩, hallows⟩ := hpossible
        exact ⟨⟨h.marked.kv, h.marked.result, h.marked.invokedOnce, h.marked.tookOnce, h.marked.invoked,
            h.marked.attempted, h.marked.took, h.marked.sameOp⟩,
          h.grouped.complete ha rfl rfl rfl, h.timed.complete h.marked h.grouped ha hbefore hallows rfl rfl rfl⟩

theorem sound_of_run {acts : List Act} (h : AtomicRun initial acts s) : s.Sound initial := by
  refine h.invariant (P := fun _ s => s.Sound initial) ?_ fun _ _ _ _ _ hs hstep => hs.step hstep
  rintro s rfl
  exact sound_start initial

/-! ## The points of the search

What the checker makes of an operation, in terms of the store. -/

/-- The reply that decides about the operation: a success, or else the last one. -/
def AtomicStore.Decides (s : AtomicStore) (r : Reply) : Prop :=
  r ∈ s.replies ∧ (r.result.isOk ∨ s.acknowledged r.key = false ∧ s.lastReply r.key = some r)

/-- The observed completion is that of the deciding reply, if there is a reply at all. -/
theorem AtomicStore.observed_cases {g : Group}
    (hcompletes : g.completes = (s.replies.filter fun r => r.key = key).map fun r => (r.ts, r.result)) :
    g.observed = none ∧ s.acknowledged key = false ∧ s.lastReply key = none ∨
      ∃ r, s.Decides r ∧ r.key = key ∧ g.observed = some (r.ts, r.result) := by
  have hobserved : g.observed = (((s.replies.filter fun r => r.key = key).find? fun r => r.result.isOk).or
      (s.lastReply key)).map fun r => (r.ts, r.result) := by
    rw [Group.observed, hcompletes, List.find?_map, List.getLast?_map, ← Option.map_or]
    rfl
  have hmem {r : Reply} (hr : r ∈ s.replies.filter fun r => r.key = key) : r ∈ s.replies ∧ r.key = key :=
    ⟨(List.mem_filter.mp hr).1, of_decide_eq_true (List.mem_filter.mp hr).2⟩
  rw [hobserved]
  cases hfind : (s.replies.filter fun r => r.key = key).find? fun r => r.result.isOk with
  | some r =>
      obtain ⟨hr, hkey⟩ := hmem (List.mem_of_find?_eq_some hfind)
      have hok := List.find?_some hfind
      exact .inr ⟨r, ⟨hr, .inl hok⟩, hkey, rfl⟩
  | none =>
      have hnever : s.acknowledged key = false := by
        rw [AtomicStore.acknowledged, List.any_eq_false]
        intro r hr hok
        obtain ⟨hkey, hok⟩ := Bool.and_eq_true _ _ ▸ hok
        exact List.find?_eq_none.mp hfind r (List.mem_filter.mpr ⟨hr, hkey⟩) hok
      cases hlast : s.lastReply key with
      | none => exact .inl ⟨rfl, hnever, rfl⟩
      | some r =>
          obtain ⟨hr, hkey⟩ := hmem (List.mem_of_getLast? hlast)
          subst hkey
          exact .inr ⟨r, ⟨hr, .inr ⟨hnever, hlast⟩⟩, rfl, rfl⟩

structure AtomicStore.Describes (s : AtomicStore) (p : LogOp) : Prop where
  attempt : ∃ a ∈ s.attempts, a.key = p.key ∧ a.op = p.op
  stamp : ∀ r ∈ s.replies, ∀ t < r.after, InvokedAt s.marks p.key t → p.invokeTs < r.ts
  observed : p.completeTs = none ∧ p.result = none ∧ s.acknowledged p.key = false ∧ s.lastReply p.key = none ∨
    ∃ r, s.Decides r ∧ r.key = p.key ∧ p.completeTs = some r.ts ∧ p.result = some r.result

theorem AtomicStore.Sound.describes (h : s.Sound initial) {p : LogOp} (hp : p ∈ mergeRetries s.events) : s.Describes p := by
  obtain ⟨key, g, hg, hinto⟩ := mem_mergeRetries.mp hp
  obtain ⟨a, ha, rfl, hop⟩ := h.grouped.op key g hg
  obtain ⟨ts, _, _, _, _, hts, -⟩ := h.grouped.stamp _ g hg
  have hcompletes := h.grouped.completes _ g hg
  obtain ⟨op, hop', rfl⟩ := Option.map_eq_some_iff.mp hinto
  rw [hop] at hop'
  obtain rfl := Option.some.inj hop'
  refine ⟨⟨a, ha, rfl, rfl⟩, ?_, ?_⟩
  · intro r hr t hlt ht
    show g.invokeTs.getD 0 < r.ts
    rw [hts]
    exact h.timed.stamp r hr a.key t g ts hlt ht hg hts
  · rcases AtomicStore.observed_cases hcompletes with ⟨hobserved, hnever, hlast⟩ | ⟨r, hr, hkey, hobserved⟩
    · exact .inl ⟨by rw [hobserved]; rfl, by rw [hobserved]; rfl, hnever, hlast⟩
    · exact .inr ⟨r, hr, hkey, by rw [hobserved]; rfl, by rw [hobserved]; rfl⟩

/-- When the checker resolves the operation: when it took effect, or else when it was invoked. -/
def AtomicStore.ResolvedAt (s : AtomicStore) (key : SessionKey) (t : Nat) : Prop :=
  (∃ op result, TookAt s.marks key op result t) ∨
    (∀ t' op result, ¬ TookAt s.marks key op result t') ∧ InvokedAt s.marks key t

theorem AtomicStore.Sound.exists_resolvedAt (h : s.Sound initial) (ha : a ∈ s.attempts) : ∃ t, s.ResolvedAt a.key t := by
  by_cases htook : ∃ t op result, TookAt s.marks a.key op result t
  · obtain ⟨t, op, result, ht⟩ := htook
    exact ⟨t, .inl ⟨op, result, ht⟩⟩
  · obtain ⟨t, ht⟩ := h.marked.invoked a ha
    exact ⟨t, .inr ⟨fun t' op result ht' => htook ⟨t', op, result, ht'⟩, ht⟩⟩

/-- One operation is resolved at a time. -/
theorem AtomicStore.ResolvedAt.key_eq {key' : SessionKey} {t : Nat} (h : s.ResolvedAt key t) (h' : s.ResolvedAt key' t) :
    key = key' := by
  rcases h with ⟨op, result, ht⟩ | ⟨-, ht⟩ <;> rcases h' with ⟨op', result', ht'⟩ | ⟨-, ht'⟩ <;>
    have heq := Option.some.inj (ht.symm.trans ht') <;> cases heq <;> rfl

/-- An operation is resolved when it took effect. -/
theorem AtomicStore.Sound.resolvedAt_unique (h : s.Sound initial) {t t' : Nat} (hresolved : s.ResolvedAt key t)
    (htook : TookAt s.marks key op result t') : t = t' := by
  rcases hresolved with ⟨op', result', ht⟩ | ⟨hnever, -⟩
  · exact h.marked.tookOnce t t' key op' op result' result ht htook
  · exact absurd htook (hnever t' op result)

/-- An operation is not resolved before it is invoked. -/
theorem AtomicStore.Sound.exists_invokedAt_le (h : s.Sound initial) {t : Nat} (hresolved : s.ResolvedAt key t) :
    ∃ t' ≤ t, InvokedAt s.marks key t' := by
  rcases hresolved with ⟨op, result, ht⟩ | ⟨-, ht⟩
  · obtain ⟨⟨t', hlt, ht'⟩, -⟩ := h.marked.took t key op result ht
    exact ⟨t', Nat.le_of_lt hlt, ht'⟩
  · exact ⟨t, Nat.le_refl t, ht⟩

/-- What it takes for a write that took effect: no reply hides it. -/
theorem AtomicStore.Telling.took (h : s.Telling) {t : Nat} (htook : TookAt s.marks key op result t) (hwrite : op.isLoggedOp)
    (hnever : s.acknowledged key = false) {r : Reply} (hlast : s.lastReply key = some r) :
    r.result.isKnownNotApplied = false ∧ t < r.after := by
  have htells := h (.took key op result, t) (List.mem_zipIdx_iff_getElem?.mpr htook)
  simpa [AtomicStore.tells, hwrite, hnever, hlast] using htells

/-- What took effect is what was asked for. -/
theorem AtomicStore.Sound.op_of_took (h : s.Sound initial) {p : LogOp} (hdescribes : s.Describes p) {t : Nat}
    (htook : TookAt s.marks p.key op result t) : op = p.op := by
  obtain ⟨-, b, hb, hbkey, rfl⟩ := h.marked.took t p.key op result htook
  obtain ⟨a, ha, hakey, hop⟩ := hdescribes.attempt
  rw [← hop]
  exact h.marked.sameOp b hb a ha (hbkey.trans hakey.symm)

theorem AtomicStore.isOk_of_never (hnever : s.acknowledged key = false) {r : Reply} (hr : r ∈ s.replies) (hkey : r.key = key) :
    r.result.isOk = false := by
  have hnone := List.any_eq_false.mp hnever r hr
  rw [decide_eq_true hkey, Bool.true_and, Bool.not_eq_true] at hnone
  exact hnone

theorem LogOp.isLinearizationPoint_eq {p : LogOp} {ts : UInt64} (hcomplete : p.completeTs = some ts)
    (hresult : p.result = some result) : p.isLinearizationPoint = result.isOk := by
  rw [LogOp.isLinearizationPoint, hcomplete, hresult]
  rfl

/-- **A point is resolved before the reply that decides about it.** -/
theorem AtomicStore.Sound.lt_after (h : s.Sound initial) (htelling : s.Telling) {p : LogOp} (hdescribes : s.Describes p)
    (hpoint : p.isPoint) {r : Reply} (hdecides : s.Decides r) (hkey : r.key = p.key) (hcomplete : p.completeTs = some r.ts)
    (hresult : p.result = some r.result) {t : Nat} (hresolved : s.ResolvedAt p.key t) : t < r.after := by
  obtain ⟨hr, hok | ⟨hnever, hlast⟩⟩ := hdecides
  · obtain ⟨t', hlt, op, ht'⟩ := h.timed.took r hr hok
    rw [hkey] at ht'
    rwa [h.resolvedAt_unique hresolved ht']
  · rw [hkey] at hnever hlast
    rcases hresolved with ⟨op, result, ht⟩ | ⟨-, ht⟩
    · -- Only a write is a point without success.
      have hwrite : op.isLoggedOp := by
        rw [LogOp.isPoint, LogOp.isLinearizationPoint_eq hcomplete hresult, AtomicStore.isOk_of_never hnever hr hkey,
          Bool.false_or, LogOp.isOptionalWritePoint, Bool.and_eq_true, Bool.and_eq_true] at hpoint
        rw [h.op_of_took hdescribes ht]
        exact hpoint.1.1
      exact (htelling.took ht hwrite hnever hlast).2
    · obtain ⟨t', hlt, ht'⟩ := h.timed.invoked r hr
      rw [hkey] at ht'
      rwa [h.marked.invokedOnce t t' p.key ht ht']

/-- A write that took effect is a point. -/
theorem AtomicStore.Sound.isPoint_of_took (h : s.Sound initial) (htelling : s.Telling) {p : LogOp}
    (hdescribes : s.Describes p) {t : Nat} (htook : TookAt s.marks p.key op result t) (hwrite : op.isLoggedOp) :
    p.isPoint := by
  have hop : p.isWriteOp = true := by
    rw [LogOp.isWriteOp, ← h.op_of_took hdescribes htook]
    exact hwrite
  rcases hdescribes.observed with ⟨-, hresult, -, -⟩ | ⟨r, ⟨hr, hok | ⟨hnever, hlast⟩⟩, hkey, hcomplete, hresult⟩
  · rw [LogOp.isPoint, LogOp.isOptionalWritePoint, LogOp.isKnownNotApplied, LogOp.isLinearizationPoint, hop, hresult]
    simp
  · rw [LogOp.isPoint, LogOp.isLinearizationPoint_eq hcomplete hresult, hok]
    rfl
  · rw [hkey] at hnever hlast
    have hunknown := (htelling.took htook hwrite hnever hlast).1
    have hknown : p.isKnownNotApplied = false := by
      rw [LogOp.isKnownNotApplied, hresult]
      cases hcase : r.result with
      | ok value => rfl
      | err kind =>
          rw [hcase] at hunknown
          exact hunknown
    rw [LogOp.isPoint, LogOp.isOptionalWritePoint, LogOp.isLinearizationPoint_eq hcomplete hresult,
      AtomicStore.isOk_of_never hnever hr hkey, hop, hknown]
    rfl

theorem AtomicStore.Sound.exists_point (h : s.Sound initial) (htelling : s.Telling) {t : Nat}
    (htook : TookAt s.marks key op result t) (hwrite : op.isLoggedOp) :
    ∃ p ∈ mergeRetries s.events, p.isPoint ∧ TookAt s.marks p.key op result t := by
  obtain ⟨-, a, ha, rfl, -⟩ := h.marked.took t key op result htook
  obtain ⟨g, hg⟩ := h.grouped.grouped a ha
  obtain ⟨b, -, -, hop⟩ := h.grouped.op _ g hg
  obtain ⟨p, hinto⟩ : ∃ p, g.intoLogOp a.key = some p := by
    rw [Group.intoLogOp, hop]
    exact ⟨_, rfl⟩
  have hmerged : p ∈ mergeRetries s.events := mem_mergeRetries.mpr ⟨a.key, g, hg, hinto⟩
  rw [← Group.key_of_intoLogOp hinto] at htook
  exact ⟨p, hmerged, h.isPoint_of_took htelling (h.describes hmerged) htook hwrite, htook⟩

/-- A required point took effect, with the result that was observed. -/
theorem AtomicStore.Sound.took_of_required (h : s.Sound initial) {p : LogOp} (hdescribes : s.Describes p)
    (hrequired : p.kind = .required) : ∃ t op result, TookAt s.marks p.key op result t ∧ p.result = some result := by
  have hpoint : p.isLinearizationPoint := by
    by_contra hnot
    rw [LogOp.kind, if_neg hnot] at hrequired
    cases hrequired
  rcases hdescribes.observed with ⟨hcomplete, -, -, -⟩ | ⟨r, ⟨hr, -⟩, hkey, hcomplete, hresult⟩
  · rw [LogOp.isLinearizationPoint, hcomplete] at hpoint
    cases hpoint
  · rw [LogOp.isLinearizationPoint_eq hcomplete hresult] at hpoint
    obtain ⟨t, -, op, ht⟩ := h.timed.took r hr hpoint
    exact ⟨t, op, r.result, hkey ▸ ht, hresult⟩

/-! ## The theorem -/

theorem replay_take_succ {marks : List Mark} {t : Nat} {m : Mark} (h : marks[t]? = some m) :
    replay initial (marks.take (t + 1)) = replay initial (marks.take t ++ [m]) := by
  rw [List.take_add_one, h]
  rfl

theorem KvState.apply_get {state : KvState} (h : op.isLoggedOp = false) : (state.apply op).1 = state := by
  cases op with
  | put key value => cases h
  | delete key => cases h
  | get key => rfl

theorem eq_of_key_eq {points : List LogOp} (hkeys : points.Pairwise fun p q => p.key ≠ q.key) {i j : Nat} {p q : LogOp}
    (hp : points[i]? = some p) (hq : points[j]? = some q) (hkey : p.key = q.key) : i = j := by
  obtain ⟨hi, rfl⟩ := List.getElem?_eq_some_iff.mp hp
  obtain ⟨hj, rfl⟩ := List.getElem?_eq_some_iff.mp hq
  rcases Nat.lt_trichotomy i j with hlt | heq | hgt
  · exact absurd hkey (List.pairwise_iff_getElem.mp hkeys i j hi hj hlt)
  · exact heq
  · exact absurd hkey.symm (List.pairwise_iff_getElem.mp hkeys j i hj hi hgt)

/-- The times are in keeping with the order that the checker reads off the timestamps. -/
theorem AtomicStore.Sound.lt_of_completesBefore (h : s.Sound initial) (htelling : s.Telling) {p q : LogOp}
    (hp : s.Describes p) (hpoint : p.isPoint) (hq : s.Describes q) {t t' : Nat} (ht : s.ResolvedAt p.key t)
    (ht' : s.ResolvedAt q.key t') (hbefore : p.completesBefore q) : t < t' := by
  rcases hp.observed with ⟨hcomplete, -, -, -⟩ | ⟨r, hdecides, hkey, hcomplete, hresult⟩
  · rw [LogOp.completesBefore, hcomplete] at hbefore
    cases hbefore
  · rw [LogOp.completesBefore, hcomplete] at hbefore
    have hle : r.ts ≤ q.invokeTs := of_decide_eq_true hbefore
    have hlt := h.lt_after htelling hp hpoint hdecides hkey hcomplete hresult ht
    obtain ⟨t₀, hle₀, ht₀⟩ := h.exists_invokedAt_le ht'
    -- Otherwise `q` was invoked before the reply, and would have the smaller timestamp.
    by_contra hnot
    have hstamp := hq.stamp r hdecides.1 t₀ (by omega) ht₀
    exact UInt64.lt_irrefl _ (UInt64.lt_of_lt_of_le hstamp hle)

/-- At its time, a point is placed or skipped. -/
theorem AtomicStore.Sound.resolves (h : s.Sound initial) {points : List LogOp} {i : Nat} {p : LogOp}
    (hp : points[i]? = some p) (hdescribes : s.Describes p) {t : Nat} (ht : s.ResolvedAt p.key t) :
    Resolves points i (replay initial (s.marks.take t)) (replay initial (s.marks.take (t + 1))) := by
  refine ⟨p, hp, ?_⟩
  rcases ht with ⟨op, result, ht⟩ | ⟨hnever, ht⟩
  · have hresult := h.marked.result t p.key op result ht
    rw [replay_take_succ ht, replay_took]
    obtain rfl := h.op_of_took hdescribes ht
    refine .inl ⟨fun hrequired => ?_, rfl⟩
    obtain ⟨t', op', result', ht', hobserved⟩ := h.took_of_required hdescribes hrequired
    obtain rfl := h.marked.tookOnce t t' p.key _ _ _ _ ht ht'
    obtain ⟨-, -, rfl⟩ := Mark.took.inj (Option.some.inj (ht.symm.trans ht'))
    rw [hobserved, hresult]
  · rw [replay_take_succ ht, replay_invoked]
    refine .inr ⟨?_, rfl⟩
    cases hkind : p.kind with
    | optional => rfl
    | required =>
        obtain ⟨t', op, result, ht', -⟩ := h.took_of_required hdescribes hkind
        exact absurd ht' (hnever t' op result)

/-- **The store's own order is one the checker accepts.** -/
theorem AtomicStore.Sound.search (h : s.Sound initial) (htelling : s.Telling) :
    search ((mergeRetries s.events).filter LogOp.isPoint) initial = true := by
  generalize hpoints : (mergeRetries s.events).filter LogOp.isPoint = points
  have hmem {p : LogOp} (hp : p ∈ points) : s.Describes p ∧ p.isPoint := by
    rw [← hpoints] at hp
    obtain ⟨hp, hpoint⟩ := List.mem_filter.mp hp
    exact ⟨h.describes hp, hpoint⟩
  have hkeys : points.Pairwise fun p q => p.key ≠ q.key := hpoints ▸ (pairwise_mergeRetries s.events).filter _
  -- Every point is resolved at some time.
  have hslot (i : Nat) : ∃ t, ∀ p, points[i]? = some p → s.ResolvedAt p.key t := by
    cases hp : points[i]? with
    | none => exact ⟨0, nofun⟩
    | some p =>
        obtain ⟨a, ha, hkey, -⟩ := (hmem (List.mem_of_getElem? hp)).1.attempt
        obtain ⟨t, ht⟩ := h.exists_resolvedAt ha
        refine ⟨t, fun q hq => ?_⟩
        obtain rfl := Option.some.inj hq
        exact hkey ▸ ht
  choose time htime using hslot
  have hschedule := @search_of_schedule points time (fun t => replay initial (s.marks.take t))
  refine hschedule ?_ ?_ ?_ ?_
  · intro i j hi hj heq
    have hp := List.getElem?_eq_getElem hi
    have hq := List.getElem?_eq_getElem hj
    have hkey := (htime i _ hp).key_eq (heq ▸ htime j _ hq)
    exact eq_of_key_eq hkeys hp hq hkey
  · intro i j p q hp hq hbefore
    obtain ⟨hdescribes, hpoint⟩ := hmem (List.mem_of_getElem? hp)
    exact h.lt_of_completesBefore htelling hdescribes hpoint (hmem (List.mem_of_getElem? hq)).1 (htime i p hp)
      (htime j q hq) hbefore
  · intro i hi
    have hp := List.getElem?_eq_getElem hi
    exact h.resolves hp (hmem (List.mem_of_getElem? hp)).1 (htime i _ hp)
  · intro t hidle
    show replay initial (s.marks.take (t + 1)) = replay initial (s.marks.take t)
    cases hmark : s.marks[t]? with
    | none => rw [List.take_add_one, hmark, Option.toList_none, List.append_nil]
    | some m =>
        rw [replay_take_succ hmark]
        cases m with
        | invoked key => exact replay_invoked
        | took key op result =>
            rw [replay_took]
            cases hwrite : op.isLoggedOp with
            | false => exact KvState.apply_get hwrite
            | true =>
                -- A write that takes effect is a point, and this is its time.
                obtain ⟨p, hp, hpoint, htook⟩ := h.exists_point htelling hmark hwrite
                obtain ⟨i, hi⟩ := List.mem_iff_getElem?.mp (hpoints ▸ List.mem_filter.mpr ⟨hp, hpoint⟩)
                exact absurd (h.resolvedAt_unique (htime i p hi) htook) (hidle i (List.getElem?_eq_some_iff.mp hi).1)

/-- **The checker does not accuse an atomic store**, whatever its clients try, retry and are told, as long as no reply hides
a write: every write that took effect was acknowledged at some time, or has no reply, or its last reply leaves the outcome
open and came after the effect. -/
theorem checker_spares_atomic {acts : List Act} (h : AtomicRun initial acts s) (htelling : s.Telling)
    (witness : List UInt64) : checkLinearizable s.events initial ≠ .violation witness :=
  checkReduced_ne_violation ((sound_of_run h).search htelling) witness

/-- A write that is retried after a timeout, and another one that is not; both are read. -/
def retryingActs : List Act :=
  [ .invoke 1 ⟨0, 0⟩ (.put [107] 1) 0, .perform 1, .complete 1 10 (.err .timeout) none,
    .invoke 2 ⟨0, 0⟩ (.put [107] 1) 11, .complete 2 15 (.ok none) (some 100),
    .invoke 3 ⟨1, 0⟩ (.get [107]) 20, .perform 3, .complete 3 30 (.ok (some 1)) none,
    .invoke 4 ⟨2, 0⟩ (.put [107] 2) 31, .perform 4, .complete 4 40 (.err .timeout) none,
    .invoke 5 ⟨1, 1⟩ (.get [107]) 41, .perform 5, .complete 5 50 (.ok (some 2)) none ]

theorem checker_spares_atomic_retrying :
    ∃ s, AtomicRun .new retryingActs s ∧ s.Telling ∧ s.replies.length = 5 ∧
      ∀ witness, checkLinearizable s.events .new ≠ .violation witness := by
  have heval : (retryingActs.foldlM AtomicStore.exec (AtomicStore.start .new)).any
      (fun s => s.Telling ∧ s.replies.length = 5) := by
    decide +kernel
  obtain ⟨s, hs, hfacts⟩ := (Option.any_eq_true _ _).mp heval
  obtain ⟨htelling, hlength⟩ := of_decide_eq_true hfacts
  have hrun : AtomicRun .new retryingActs s := .of_foldlM (fun _ _ _ => id) rfl hs
  exact ⟨s, hrun, htelling, hlength, checker_spares_atomic hrun htelling⟩

/-- A write times out, is not there for one read, and takes effect before the next one. -/
def lateActs : List Act :=
  [ .invoke 1 ⟨0, 0⟩ (.put [107] 1) 0, .complete 1 10 (.err .timeout) none,
    .invoke 2 ⟨1, 0⟩ (.get [107]) 20, .perform 2, .complete 2 30 (.ok none) none,
    .perform 1,
    .invoke 3 ⟨1, 1⟩ (.get [107]) 40, .perform 3, .complete 3 50 (.ok (some 1)) none ]

/-- A write takes effect and times out; its retry finds no leader, and the value is read. -/
def refusedActs : List Act :=
  [ .invoke 1 ⟨0, 0⟩ (.put [107] 1) 0, .perform 1, .complete 1 10 (.err .timeout) none,
    .invoke 2 ⟨0, 0⟩ (.put [107] 1) 11, .complete 2 12 (.err .notLeader) none,
    .invoke 3 ⟨1, 0⟩ (.get [107]) 20, .perform 3, .complete 3 30 (.ok (some 1)) none ]

/-- **The checker accuses an atomic store**, once for a write that takes effect after it timed out, and once for a write
whose retry is refused. -/
theorem checker_accuses_atomic :
    (∃ s, AtomicRun .new lateActs s ∧ checkLinearizable s.events .new = .violation [3]) ∧
      ∃ s, AtomicRun .new refusedActs s ∧ checkLinearizable s.events .new = .violation [3] := by
  have hrun {acts : List Act} (heval : (acts.foldlM AtomicStore.exec (AtomicStore.start .new)).any
      (fun s => checkLinearizable s.events .new = .violation [3])) :
      ∃ s, AtomicRun .new acts s ∧ checkLinearizable s.events .new = .violation [3] := by
    obtain ⟨s, hs, hfacts⟩ := (Option.any_eq_true _ _).mp heval
    exact ⟨s, .of_foldlM (fun _ _ _ => id) rfl hs, of_decide_eq_true hfacts⟩
  exact ⟨hrun (by decide +kernel), hrun (by decide +kernel)⟩

end Arachne.Oracle
