import Arachne.Data.Family
import Arachne.Data.Run
import Mathlib.Data.List.Nodup

/-! # Outbound messages

The actor does not send. `enqueue_outbound` puts each message into a bounded queue of its peer and wakes a background task
once at the end of the batch; the task (`run_outbound_sender`) takes out everything there is and sends it, one message
after the other for a peer and the peers side by side.

Queues, wake channel and drop counter are shared. The system here makes a step of every access to them: each message of an
enqueue call, which takes the lock for itself, the call's `fetch_add`, its wake signal; and on the other side the receipt
of a signal, the drain, every send and every answer of the transport. Any number of enqueue calls may be under way.

A message is numbered when it is passed in, so that it can be followed: `outbound_accounted` says where each one is, that
none is in two places, that what the transport gets for a peer is in order, and that a filled queue never goes unnoticed. -/

namespace Arachne.Consensus.Outbound

/-- `OUTBOUND_QUEUE_DEPTH`. -/
def outboundQueueDepth : Nat := 32

structure Message (α : Type) where
  getTo : UInt64
  body : α
  deriving DecidableEq, Repr

/-- A message and its number. -/
abbrev Item (α : Type) := Message α × Nat

/-- This node and the peers it has addresses for. The node and its sender task have the same table, which never
changes. -/
structure Env where
  selfId : UInt64
  peers : List UInt64
  nodup : peers.Nodup

/-- A call of `enqueue_outbound`: the messages it has not come to, its two local variables, and the messages behind its
count. -/
structure Call (α : Type) where
  rest : List (Item α)
  dropped : Nat := 0
  enqueued : Bool := false
  refused : List (Item α) := []
  deriving DecidableEq, Repr

/-- Where the sender task is. With a batch it runs one future per peer, each with the messages it still has to send and
the one the transport has not answered. -/
inductive Sender (α : Type) where
  | idle
  /-- A signal is received, the lock not yet taken. -/
  | woken
  | sending (batch : UInt64 → List (Item α)) (inFlight : UInt64 → Option (Item α))
  | stopped

def Sender.batch {α : Type} : Sender α → UInt64 → List (Item α)
  | .sending batch _ => batch
  | _ => fun _ => []

def Sender.inFlight {α : Type} : Sender α → UInt64 → Option (Item α)
  | .sending _ inFlight => inFlight
  | _ => fun _ => none

/-- The shared state and the two sides. History: the messages passed in; those a call has dealt with; those the transport
got for each peer, and those for which it reported an error; and those that were counted without having got there. -/
structure Sys (α : Type) where
  queues : UInt64 → List (Item α) := fun _ => []
  wakes : Nat := 0
  dropped : Nat := 0
  calls : List (Call α) := []
  sender : Sender α := .idle
  begun : List (Item α) := []
  offered : List (Item α) := []
  handed : UInt64 → List (Item α) := fun _ => []
  failed : List (Item α) := []
  lost : List (Item α) := []

inductive Action (α : Type) where
  | begin (messages : List (Message α))
  /-- A call comes to its next message. -/
  | message (call : Nat)
  /-- A call adds its count to the counter. -/
  | count (call : Nat)
  /-- A call signals, if it has enqueued something, and returns. -/
  | finish (call : Nat)
  | wake
  | drain
  /-- The future of a peer comes to its next message. -/
  | send (peer : UInt64)
  | answer (peer : UInt64) (ok : Bool)
  | join
  | stop

variable {α : Type}

namespace Sys

variable (env : Env) (σ : Sys α)

/-- A message that is not enqueued is left to the call's count. -/
def refuse (i : Nat) (call : Call α) (item : Item α) (rest : List (Item α)) : Sys α :=
  { σ with
    calls := σ.calls.set i { call with rest, dropped := call.dropped + 1, refused := call.refused ++ [item] }
    offered := σ.offered ++ [item] }

def accept (i : Nat) (call : Call α) (item : Item α) (rest : List (Item α)) : Sys α :=
  { σ with
    queues := Function.update σ.queues item.1.getTo (σ.queues item.1.getTo ++ [item])
    calls := σ.calls.set i { call with rest, enqueued := true }
    offered := σ.offered ++ [item] }

/-- The body of the loop of `enqueue_outbound`. -/
def enqueueOne (i : Nat) (call : Call α) (item : Item α) (rest : List (Item α)) : Sys α :=
  if item.1.getTo = env.selfId then { σ with calls := σ.calls.set i { call with rest } }
  else if item.1.getTo ∉ env.peers then σ.refuse i call item rest
  else if outboundQueueDepth ≤ (σ.queues item.1.getTo).length then σ.refuse i call item rest
  else σ.accept i call item rest

/-- The drain: every queue is emptied into a batch, if there is anything. -/
def takeAll : Sys α :=
  { σ with
    queues := fun _ => []
    sender := if env.peers.all fun p => (σ.queues p).isEmpty then .idle else .sending σ.queues fun _ => none }

/-- The next message of a peer's future, or all of them if the peer is not known. -/
def sendOne (batch : UInt64 → List (Item α)) (inFlight : UInt64 → Option (Item α)) (p : UInt64) (item : Item α)
    (items : List (Item α)) : Sys α :=
  if p ∈ env.peers then
    { σ with
      sender := .sending (Function.update batch p items) (Function.update inFlight p (some item))
      handed := Function.update σ.handed p (σ.handed p ++ [item]) }
  else
    { σ with
      sender := .sending (Function.update batch p []) inFlight
      dropped := σ.dropped + (item :: items).length
      lost := σ.lost ++ item :: items }

def exec (σ : Sys α) : Action α → Option (Sys α)
  | .begin messages =>
    match σ.sender with
    | .stopped => none
    | _ =>
      let rest := messages.zipIdx σ.begun.length
      some { σ with calls := σ.calls ++ [{ rest }], begun := σ.begun ++ rest }
  | .message i => do
    let call ← σ.calls[i]?
    match call.rest with
    | [] => none
    | item :: rest => some (σ.enqueueOne env i call item rest)
  | .count i => do
    let call ← σ.calls[i]?
    if call.rest = [] ∧ 0 < call.dropped then
      some { σ with
        dropped := σ.dropped + call.dropped
        lost := σ.lost ++ call.refused
        calls := σ.calls.set i { call with dropped := 0, refused := [] } }
    else none
  | .finish i => do
    let call ← σ.calls[i]?
    if call.rest = [] ∧ call.dropped = 0 then
      some { σ with calls := σ.calls.eraseIdx i, wakes := if call.enqueued then σ.wakes + 1 else σ.wakes }
    else none
  | .wake =>
    match σ.sender with
    | .idle => if 0 < σ.wakes then some { σ with wakes := σ.wakes - 1, sender := .woken } else none
    | _ => none
  | .drain =>
    match σ.sender with
    | .woken => some (σ.takeAll env)
    | _ => none
  | .send p =>
    match σ.sender with
    | .sending batch inFlight =>
      match batch p, inFlight p with
      | item :: items, none => some (σ.sendOne env batch inFlight p item items)
      | _, _ => none
    | _ => none
  | .answer p ok =>
    match σ.sender with
    | .sending batch inFlight =>
      match inFlight p with
      | none => none
      | some item =>
        let σ := { σ with sender := .sending batch (Function.update inFlight p none) }
        some (if ok then σ else { σ with dropped := σ.dropped + 1, failed := σ.failed ++ [item] })
    | _ => none
  | .join =>
    match σ.sender with
    | .sending batch inFlight =>
      if env.peers.all fun p => (batch p).isEmpty && (inFlight p).isNone then some { σ with sender := .idle } else none
    | _ => none
  | .stop =>
    -- the node is dropped, so no call is under way
    match σ.sender, σ.calls with
    | .idle, [] => some { σ with sender := .stopped }
    | _, _ => none

end Sys

/-- A run of a node's enqueue calls and its sender task, from the start of the task. -/
abbrev Run (env : Env) : List (Action α) → Sys α → Prop :=
  Transition.Run (· = {}) fun σ a σ' => σ.exec env a = some σ'

/-! ## Where messages are -/

/-- What a call holds of the messages for other nodes: those it has not come to, and those it has dropped and not yet
counted. -/
def Call.held (env : Env) (call : Call α) : List (Item α) :=
  call.rest.filter (·.1.getTo ≠ env.selfId) ++ call.refused

namespace Sys

variable (env : Env) (σ : Sys α)

def held : List (Item α) := σ.calls.flatMap (Call.held env)

def queued : List (Item α) := env.peers.flatMap σ.queues

/-- Drained and not yet handed over. -/
def batched : List (Item α) := env.peers.flatMap σ.sender.batch

def handedOver : List (Item α) := env.peers.flatMap σ.handed

/-- Every place a message for another node can be in. -/
def everywhere : List (Item α) := σ.held env ++ (σ.queued env ++ (σ.batched env ++ (σ.handedOver env ++ σ.lost)))

/-- A signal for the sender: in the channel, or received and not yet acted on. -/
def WakePending : Prop :=
  0 < σ.wakes ∨ match σ.sender with
    | .woken => True
    | _ => False

/-- What was accepted for a peer, from the first message handed over to the last one queued. -/
def lane (p : UInt64) : List (Item α) := σ.handed p ++ (σ.sender.batch p ++ σ.queues p)

end Sys

structure Inv (env : Env) (σ : Sys α) : Prop where
  known : ∀ p, p ∉ env.peers → σ.lane p = []
  bounded : ∀ p, (σ.queues p).length ≤ outboundQueueDepth
  fifo : ∀ p, (σ.lane p).Sublist (σ.offered.filter (·.1.getTo = p))
  accounted : (σ.everywhere env).Perm (σ.begun.filter (·.1.getTo ≠ env.selfId))
  numbered : σ.begun.map Prod.snd = List.range σ.begun.length
  tallied : ∀ call ∈ σ.calls, call.dropped = call.refused.length
  counted : σ.dropped = σ.lost.length + σ.failed.length
  inFlight : ∀ p, ∀ item ∈ σ.sender.inFlight p, item ∈ σ.handed p
  failed : ∀ item ∈ σ.failed, ∃ p, item ∈ σ.handed p
  noticed : ∀ p, σ.queues p ≠ [] → (∃ call ∈ σ.calls, call.enqueued = true) ∨ σ.WakePending

section

variable {env : Env} {σ σ' : Sys α} {i : Nat} {call : Call α} {item : Item α} {rest : List (Item α)}

/-! ## The enqueue calls -/

/-- A call that is replaced by one with the same messages. -/
theorem held_set {call' : Call α} (hcall : σ.calls[i]? = some call) (hheld : (call'.held env).Perm (call.held env)) :
    ((σ.calls.set i call').flatMap (Call.held env)).Perm (σ.held env) := by
  have hset := Family.flatMap_set_perm hcall call' (Call.held env)
  exact (List.perm_append_right_iff _).mp (hset.trans (hheld.append_left _))

/-- The next message is this node's own, and then it is nobody's, or it is held in front of the others. -/
theorem held_cons (hrest : call.rest = item :: rest) :
    call.held env = if item.1.getTo = env.selfId then { call with rest }.held env else item :: { call with rest }.held env := by
  simp only [Call.held, hrest, List.filter_cons]
  split <;> simp_all

/-- The tally of the calls after one was replaced. -/
theorem Inv.tallied_set {call' : Call α} (h : Inv env σ) (hcall' : call'.dropped = call'.refused.length) :
    ∀ call ∈ σ.calls.set i call', call.dropped = call.refused.length := by
  intro other hother
  rcases List.mem_or_eq_of_mem_set hother with hother | rfl
  · exact h.tallied other hother
  · exact hcall'

/-- A call that keeps its flag keeps filled queues noticed. -/
theorem noticed_set {call' : Call α} (hcall : σ.calls[i]? = some call) (hkeep : call.enqueued = true → call'.enqueued = true)
    (h : ∃ call ∈ σ.calls, call.enqueued = true) : ∃ call ∈ σ.calls.set i call', call.enqueued = true := by
  obtain ⟨other, hmem, hflag⟩ := h
  obtain ⟨j, hj⟩ := List.mem_iff_getElem?.mp hmem
  by_cases hij : i = j
  · subst hij
    obtain rfl := Option.some.inj (hcall.symm.trans hj)
    obtain ⟨hlt, -⟩ := List.getElem?_eq_some_iff.mp hcall
    exact ⟨call', List.mem_set hlt call', hkeep hflag⟩
  · refine ⟨other, List.mem_iff_getElem?.mpr ⟨j, ?_⟩, hflag⟩
    rwa [List.getElem?_set_ne hij]

theorem Inv.begin {messages : List (Message α)} (h : Inv env σ) :
    Inv env { σ with calls := σ.calls ++ [{ rest := messages.zipIdx σ.begun.length }],
                     begun := σ.begun ++ messages.zipIdx σ.begun.length } where
  known := h.known
  bounded := h.bounded
  fifo := h.fifo
  accounted := by
    have haccounted := h.accounted
    simp only [Sys.everywhere, Sys.held, List.flatMap_append, List.flatMap_singleton, Call.held, List.append_nil,
      List.filter_append, List.append_assoc] at haccounted ⊢
    refine List.Perm.trans ?_ (haccounted.append_right _)
    rw [List.append_assoc]
    exact List.perm_append_comm.append_left _
  numbered := by
    rw [List.map_append, h.numbered, List.length_append, List.length_zipIdx, List.zipIdx_map_snd, List.range_eq_range',
      List.range_eq_range', ← List.range'_append_1, Nat.zero_add]
  tallied other hother := by
    rcases List.mem_append.mp hother with hother | hother
    · exact h.tallied other hother
    · rw [List.mem_singleton.mp hother]
      rfl
  counted := h.counted
  inFlight := h.inFlight
  failed := h.failed
  noticed p hp := (h.noticed p hp).imp_left fun ⟨other, hmem, hflag⟩ => ⟨other, List.mem_append_left _ hmem, hflag⟩

/-- A call moves on with the same messages. -/
theorem Inv.of_set {call' : Call α} (h : Inv env σ) (hcall : σ.calls[i]? = some call)
    (hheld : (call'.held env).Perm (call.held env)) (htally : call'.dropped = call'.refused.length)
    (hkeep : call.enqueued = true → call'.enqueued = true) : Inv env { σ with calls := σ.calls.set i call' } where
  known := h.known
  bounded := h.bounded
  fifo := h.fifo
  accounted := ((held_set hcall hheld).append_right _).trans h.accounted
  numbered := h.numbered
  tallied := h.tallied_set htally
  counted := h.counted
  inFlight := h.inFlight
  failed := h.failed
  noticed p hp := (h.noticed p hp).imp_left (noticed_set hcall hkeep)

/-- A message for this node is passed over. -/
theorem Inv.skip (h : Inv env σ) (hcall : σ.calls[i]? = some call) (hrest : call.rest = item :: rest)
    (hself : item.1.getTo = env.selfId) : Inv env { σ with calls := σ.calls.set i { call with rest } } := by
  refine h.of_set hcall ?_ (h.tallied call (List.mem_of_getElem? hcall)) id
  rw [held_cons hrest, if_pos hself]

theorem sublist_offer {p : UInt64} {lane : List (Item α)} (h : lane.Sublist (σ.offered.filter (·.1.getTo = p))) :
    lane.Sublist ((σ.offered ++ [item]).filter (·.1.getTo = p)) := by
  rw [List.filter_append]
  exact h.trans (List.sublist_append_left _ _)

theorem Inv.offer (h : Inv env σ) (item : Item α) : Inv env { σ with offered := σ.offered ++ [item] } where
  known := h.known
  bounded := h.bounded
  fifo p := sublist_offer (h.fifo p)
  accounted := h.accounted
  numbered := h.numbered
  tallied := h.tallied
  counted := h.counted
  inFlight := h.inFlight
  failed := h.failed
  noticed := h.noticed

theorem Inv.refuse (h : Inv env σ) (hcall : σ.calls[i]? = some call) (hrest : call.rest = item :: rest)
    (hother : item.1.getTo ≠ env.selfId) : Inv env (σ.refuse i call item rest) := by
  have hset : Inv env { σ with
      calls := σ.calls.set i { call with rest, dropped := call.dropped + 1, refused := call.refused ++ [item] } } := by
    refine h.of_set hcall ?_ ?_ id
    · rw [held_cons hrest, if_neg hother]
      simp only [Call.held, ← List.append_assoc]
      apply List.perm_append_singleton
    · rw [h.tallied call (List.mem_of_getElem? hcall), List.length_append]
      rfl
  exact hset.offer item

/-- A message moves from its call to the queue of its peer. -/
theorem accept_everywhere (hcall : σ.calls[i]? = some call) (hrest : call.rest = item :: rest)
    (hother : item.1.getTo ≠ env.selfId) (hpeer : item.1.getTo ∈ env.peers) :
    ((σ.accept i call item rest).everywhere env).Perm (σ.everywhere env) := by
  have hset := Family.flatMap_set_perm hcall { call with rest, enqueued := true } (Call.held env)
  have hqueue := Family.flatMap_update_perm env.nodup hpeer σ.queues (σ.queues item.1.getTo ++ [item])
  have hcons : call.held env = item :: Call.held env { call with rest, enqueued := true } := by
    rw [held_cons hrest, if_neg hother]
    rfl
  rw [hcons] at hset
  classical
  refine List.perm_iff_count.mpr fun x => ?_
  have hset := hset.count_eq x
  have hqueue := hqueue.count_eq x
  simp only [Sys.everywhere, Sys.held, Sys.queued, Sys.accept, Sys.batched, Sys.handedOver, List.count_append,
    List.count_cons, List.count_nil] at hset hqueue ⊢
  omega

theorem queues_accept_self : (σ.accept i call item rest).queues item.1.getTo = σ.queues item.1.getTo ++ [item] :=
  Function.update_self ..

theorem queues_accept_of_ne {p : UInt64} (hp : p ≠ item.1.getTo) : (σ.accept i call item rest).queues p = σ.queues p :=
  Function.update_of_ne hp ..

theorem Inv.accept (h : Inv env σ) (hcall : σ.calls[i]? = some call) (hrest : call.rest = item :: rest)
    (hother : item.1.getTo ≠ env.selfId) (hpeer : item.1.getTo ∈ env.peers)
    (hroom : (σ.queues item.1.getTo).length < outboundQueueDepth) : Inv env (σ.accept i call item rest) where
  known p hp := by
    have hne : p ≠ item.1.getTo := fun heq => hp (heq ▸ hpeer)
    rw [Sys.lane, queues_accept_of_ne hne]
    exact h.known p hp
  bounded p := by
    by_cases hp : p = item.1.getTo
    · subst hp
      rw [queues_accept_self, List.length_append]
      exact hroom
    · rw [queues_accept_of_ne hp]
      exact h.bounded p
  fifo p := by
    rw [Sys.lane]
    by_cases hp : p = item.1.getTo
    · subst hp
      have hoffered : (σ.offered ++ [item]).filter (·.1.getTo = item.1.getTo) =
          σ.offered.filter (·.1.getTo = item.1.getTo) ++ [item] := by
        simp
      rw [queues_accept_self, ← List.append_assoc, ← List.append_assoc, List.append_assoc (Sys.handed _ _)]
      show List.Sublist _ ((σ.offered ++ [item]).filter _)
      rw [hoffered]
      exact (h.fifo item.1.getTo).append (.refl _)
    · rw [queues_accept_of_ne hp]
      exact sublist_offer (h.fifo p)
  accounted := (accept_everywhere hcall hrest hother hpeer).trans h.accounted
  numbered := h.numbered
  tallied := h.tallied_set (h.tallied call (List.mem_of_getElem? hcall))
  counted := h.counted
  inFlight := h.inFlight
  failed := h.failed
  noticed p hp := by
    obtain ⟨hlt, -⟩ := List.getElem?_eq_some_iff.mp hcall
    exact .inl ⟨_, List.mem_set hlt _, rfl⟩

theorem Inv.message (h : Inv env σ) (hexec : σ.exec env (.message i) = some σ') : Inv env σ' := by
  simp only [Sys.exec] at hexec
  obtain ⟨call, hcall, hexec⟩ := Option.bind_eq_some_iff.mp hexec
  split at hexec
  · cases hexec
  next item rest hrest =>
  obtain rfl := Option.some.inj hexec
  rw [Sys.enqueueOne]
  split_ifs with hself hpeer hfull
  · exact h.skip hcall hrest hself
  · exact h.refuse hcall hrest hself
  · exact h.accept hcall hrest hself hpeer (Nat.lt_of_not_le hfull)
  · exact h.refuse hcall hrest hself

/-- The counter takes over what the call has dropped. -/
theorem Inv.count (h : Inv env σ) (hexec : σ.exec env (.count i) = some σ') : Inv env σ' := by
  simp only [Sys.exec] at hexec
  obtain ⟨call, hcall, hexec⟩ := Option.bind_eq_some_iff.mp hexec
  obtain ⟨⟨hrest, -⟩, heq⟩ := Option.ite_none_right_eq_some.mp hexec
  obtain rfl := Option.some.inj heq
  have htally := h.tallied call (List.mem_of_getElem? hcall)
  have hset := Family.flatMap_set_perm hcall { call with dropped := 0, refused := [] } (Call.held env)
  have hheld : call.held env = call.refused := by rw [Call.held, hrest, List.filter_nil, List.nil_append]
  have hnone : Call.held env { call with dropped := 0, refused := [] } = [] := by
    rw [Call.held, hrest, List.filter_nil, List.nil_append]
  rw [hheld, hnone, List.append_nil] at hset
  exact {
    known := h.known
    bounded := h.bounded
    fifo := h.fifo
    accounted := by
      refine List.Perm.trans ?_ h.accounted
      classical
      refine List.perm_iff_count.mpr fun x => ?_
      have hset := hset.count_eq x
      simp only [Sys.everywhere, Sys.held, Sys.queued, Sys.batched, Sys.handedOver, List.count_append] at hset ⊢
      omega
    numbered := h.numbered
    tallied := h.tallied_set rfl
    counted := by
      have hcounted := h.counted
      simp only [List.length_append]
      omega
    inFlight := h.inFlight
    failed := h.failed
    noticed := fun p hp => (h.noticed p hp).imp_left (noticed_set hcall id) }

/-- A call that returns has nothing left, and passes its flag on to the wake channel. -/
theorem Inv.finish (h : Inv env σ) (hexec : σ.exec env (.finish i) = some σ') : Inv env σ' := by
  simp only [Sys.exec] at hexec
  obtain ⟨call, hcall, hexec⟩ := Option.bind_eq_some_iff.mp hexec
  obtain ⟨⟨hrest, hdropped⟩, heq⟩ := Option.ite_none_right_eq_some.mp hexec
  obtain rfl := Option.some.inj heq
  have hrefused : call.refused = [] := by
    have htally := h.tallied call (List.mem_of_getElem? hcall)
    exact List.length_eq_zero_iff.mp (htally.symm.trans hdropped)
  have hheld : call.held env = [] := by rw [Call.held, hrest, hrefused, List.filter_nil, List.nil_append]
  have herase := Family.flatMap_eraseIdx_perm hcall (Call.held env)
  rw [hheld, List.append_nil] at herase
  exact {
    known := h.known
    bounded := h.bounded
    fifo := h.fifo
    accounted := (herase.append_right _).trans h.accounted
    numbered := h.numbered
    tallied := fun other hother => h.tallied other (List.mem_of_mem_eraseIdx hother)
    counted := h.counted
    inFlight := h.inFlight
    failed := h.failed
    noticed := by
      intro p hp
      by_cases hflag : call.enqueued = true
      · rw [if_pos hflag]
        exact .inr (.inl (Nat.succ_pos _))
      · rw [if_neg hflag]
        refine (h.noticed p hp).imp_left fun ⟨other, hmem, hother⟩ => ⟨other, ?_, hother⟩
        obtain ⟨hi, rfl⟩ := List.getElem?_eq_some_iff.mp hcall
        rcases List.mem_cons.mp ((List.getElem_cons_eraseIdx_perm hi).mem_iff.mpr hmem) with rfl | hmem
        · exact absurd hother hflag
        · exact hmem }

/-! ## The sender -/

variable {batch : UInt64 → List (Item α)} {inFlight : UInt64 → Option (Item α)} {p : UInt64} {items : List (Item α)}
  {ok : Bool}

theorem exec_wake (hexec : σ.exec env .wake = some σ') :
    σ.sender = .idle ∧ 0 < σ.wakes ∧ σ' = { σ with wakes := σ.wakes - 1, sender := .woken } := by
  simp only [Sys.exec] at hexec
  split at hexec
  next hsender =>
    obtain ⟨hwakes, heq⟩ := Option.ite_none_right_eq_some.mp hexec
    exact ⟨hsender, hwakes, (Option.some.inj heq).symm⟩
  · cases hexec

theorem exec_drain (hexec : σ.exec env .drain = some σ') : σ.sender = .woken ∧ σ' = σ.takeAll env := by
  simp only [Sys.exec] at hexec
  split at hexec
  next hsender => exact ⟨hsender, (Option.some.inj hexec).symm⟩
  · cases hexec

theorem exec_send (hexec : σ.exec env (.send p) = some σ') :
    ∃ batch inFlight item items, σ.sender = .sending batch inFlight ∧ batch p = item :: items ∧ inFlight p = none ∧
      σ' = σ.sendOne env batch inFlight p item items := by
  simp only [Sys.exec] at hexec
  split at hexec
  next batch inFlight hsender =>
    split at hexec
    next item items hbatch hflight =>
      exact ⟨batch, inFlight, item, items, hsender, hbatch, hflight, (Option.some.inj hexec).symm⟩
    · cases hexec
  · cases hexec

theorem exec_answer (hexec : σ.exec env (.answer p ok) = some σ') :
    ∃ batch inFlight item σ₁, σ.sender = .sending batch inFlight ∧ inFlight p = some item ∧
      σ₁ = { σ with sender := .sending batch (Function.update inFlight p none) } ∧
      σ' = if ok then σ₁ else { σ₁ with dropped := σ.dropped + 1, failed := σ.failed ++ [item] } := by
  simp only [Sys.exec] at hexec
  split at hexec
  next batch inFlight hsender =>
    split at hexec
    · cases hexec
    next item hflight => exact ⟨batch, inFlight, item, _, hsender, hflight, rfl, (Option.some.inj hexec).symm⟩
  · cases hexec

theorem exec_join (hexec : σ.exec env .join = some σ') :
    ∃ batch inFlight, σ.sender = .sending batch inFlight ∧ (∀ p ∈ env.peers, batch p = [] ∧ inFlight p = none) ∧
      σ' = { σ with sender := .idle } := by
  simp only [Sys.exec] at hexec
  split at hexec
  next batch inFlight hsender =>
    obtain ⟨hall, heq⟩ := Option.ite_none_right_eq_some.mp hexec
    refine ⟨batch, inFlight, hsender, fun p hp => ?_, (Option.some.inj heq).symm⟩
    have hdone := List.all_eq_true.mp hall p hp
    rw [Bool.and_eq_true] at hdone
    exact ⟨List.isEmpty_iff.mp hdone.1, Option.isNone_iff_eq_none.mp hdone.2⟩
  · cases hexec

/-- A peer with messages under way is a known one. -/
theorem Inv.mem_peers (h : Inv env σ) (hlane : σ.lane p ≠ []) : p ∈ env.peers :=
  Decidable.byContradiction fun hp => hlane (h.known p hp)

theorem Inv.mem_peers_of_batch (h : Inv env σ) (hsender : σ.sender = .sending batch inFlight)
    (hbatch : batch p = item :: items) : p ∈ env.peers := by
  refine h.mem_peers ?_
  simp [Sys.lane, hsender, Sender.batch, hbatch]

/-- Only a signal in the channel is left when the sender is past its drain. -/
theorem Sys.WakePending.of_sending (h : σ.WakePending) (hsender : σ.sender = .sending batch inFlight) : 0 < σ.wakes := by
  refine h.resolve_right ?_
  rw [hsender]
  exact id

/-- The sender moves on with the batch it has. -/
theorem Inv.of_sender {sender : Sender α} {wakes : Nat} (h : Inv env σ) (hbatch : sender.batch = σ.sender.batch)
    (hinFlight : ∀ p, ∀ item ∈ sender.inFlight p, item ∈ σ.handed p)
    (hwake : σ.WakePending → Sys.WakePending { σ with sender, wakes }) : Inv env { σ with sender, wakes } where
  known := by
    simp only [Sys.lane, hbatch]
    exact h.known
  bounded := h.bounded
  fifo := by
    simp only [Sys.lane, hbatch]
    exact h.fifo
  accounted := by
    simp only [Sys.everywhere, Sys.batched, hbatch]
    exact h.accounted
  numbered := h.numbered
  tallied := h.tallied
  counted := h.counted
  inFlight := hinFlight
  failed := h.failed
  noticed p hp := (h.noticed p hp).imp_right hwake

theorem Inv.wake (h : Inv env σ) (hexec : σ.exec env .wake = some σ') : Inv env σ' := by
  obtain ⟨hsender, -, rfl⟩ := exec_wake hexec
  refine h.of_sender ?_ ?_ fun _ => .inr trivial
  · rw [hsender]
    rfl
  · intro p item hitem
    cases hitem

/-- The sender after a drain. -/
theorem sender_takeAll (env : Env) (σ : Sys α) :
    (σ.takeAll env).sender = .idle ∨ (σ.takeAll env).sender = .sending σ.queues fun _ => none :=
  ite_eq_or_eq ..

theorem inFlight_takeAll (env : Env) (σ : Sys α) (p : UInt64) : (σ.takeAll env).sender.inFlight p = none := by
  rcases sender_takeAll env σ with hsender | hsender <;> rw [hsender] <;> rfl

/-- The batch that is drained is what the queues held. -/
theorem Inv.batch_takeAll (h : Inv env σ) : (σ.takeAll env).sender.batch = σ.queues := by
  rw [Sys.takeAll]
  split_ifs with hempty
  · funext p
    rw [List.all_eq_true] at hempty
    by_cases hp : p ∈ env.peers
    · exact (List.isEmpty_iff.mp (hempty p hp)).symm
    · have hknown := h.known p hp
      simp only [Sys.lane, List.append_eq_nil_iff] at hknown
      exact hknown.2.2.symm
  · rfl

/-- A drain moves what is under way for a peer, and leaves it in order. -/
theorem Inv.lane_takeAll (h : Inv env σ) (hsender : σ.sender = .woken) (p : UInt64) : (σ.takeAll env).lane p = σ.lane p := by
  rw [Sys.lane, Sys.lane, h.batch_takeAll, hsender]
  exact congrArg (σ.handed p ++ ·) (List.append_nil _)

theorem Inv.drain (h : Inv env σ) (hexec : σ.exec env .drain = some σ') : Inv env σ' := by
  obtain ⟨hsender, rfl⟩ := exec_drain hexec
  have hlane := h.lane_takeAll hsender
  exact {
    known := by
      simp only [hlane]
      exact h.known
    bounded := fun p => Nat.zero_le _
    fifo := by
      simp only [hlane]
      exact h.fifo
    accounted := by
      have hnone : env.peers.flatMap (fun _ => ([] : List (Item α))) = [] := List.flatMap_eq_nil_iff.mpr fun _ _ => rfl
      have haccounted := h.accounted
      simp only [Sys.everywhere, Sys.batched, hsender, Sender.batch, hnone, List.nil_append] at haccounted
      simp only [Sys.everywhere, Sys.batched, h.batch_takeAll]
      simpa [Sys.takeAll, Sys.queued, Sys.handedOver, Sys.held, hnone] using haccounted
    numbered := h.numbered
    tallied := h.tallied
    counted := h.counted
    inFlight := by
      intro p item hitem
      rw [inFlight_takeAll] at hitem
      cases hitem
    failed := h.failed
    noticed := fun p hp => absurd rfl hp }

/-- A message is handed over, and the rest of the batch stays in order behind it. -/
theorem lane_sendOne (hpeer : p ∈ env.peers) (hsender : σ.sender = .sending batch inFlight) (hbatch : batch p = item :: items)
    (q : UInt64) : (σ.sendOne env batch inFlight p item items).lane q = σ.lane q := by
  rw [Sys.sendOne, if_pos hpeer, Sys.lane, Sys.lane, hsender]
  dsimp only [Sender.batch]
  by_cases hq : q = p
  · subst hq
    rw [Function.update_self, Function.update_self, hbatch, List.append_assoc]
    rfl
  · rw [Function.update_of_ne hq, Function.update_of_ne hq]

/-- What was handed over stays so. -/
theorem mem_update_handed {q : UInt64} {x : Item α} (hx : x ∈ σ.handed q) :
    x ∈ Function.update σ.handed p (σ.handed p ++ [item]) q := by
  by_cases hq : q = p
  · subst hq
    rw [Function.update_self]
    exact List.mem_append_left _ hx
  · rwa [Function.update_of_ne hq]

theorem Inv.sendOne (h : Inv env σ) (hsender : σ.sender = .sending batch inFlight) (hbatch : batch p = item :: items) :
    Inv env (σ.sendOne env batch inFlight p item items) := by
  have hflight : σ.sender.inFlight = inFlight := by rw [hsender]; rfl
  have hpeer : p ∈ env.peers := h.mem_peers_of_batch hsender hbatch
  have hlane := lane_sendOne hpeer hsender hbatch
  rw [Sys.sendOne, if_pos hpeer] at hlane ⊢
  exact {
    known := by
      simp only [hlane]
      exact h.known
    bounded := h.bounded
    fifo := by
      simp only [hlane]
      exact h.fifo
    accounted := by
      refine List.Perm.trans ?_ h.accounted
      have hbatched := Family.flatMap_update_perm env.nodup hpeer batch items
      have hhanded := Family.flatMap_update_perm env.nodup hpeer σ.handed (σ.handed p ++ [item])
      rw [hbatch] at hbatched
      classical
      refine List.perm_iff_count.mpr fun x => ?_
      have hbatched := hbatched.count_eq x
      have hhanded := hhanded.count_eq x
      simp only [Sys.everywhere, Sys.batched, Sys.handedOver, Sys.held, Sys.queued, Sender.batch, hsender,
        List.count_append, List.count_cons, List.count_nil] at hbatched hhanded ⊢
      omega
    numbered := h.numbered
    tallied := h.tallied
    counted := h.counted
    inFlight := by
      intro q x hx
      change x ∈ Function.update inFlight p (some item) q at hx
      show x ∈ Function.update σ.handed p (σ.handed p ++ [item]) q
      by_cases hq : q = p
      · subst hq
        rw [Function.update_self] at hx ⊢
        rw [← Option.some.inj hx]
        exact List.mem_append_right _ (List.mem_singleton_self _)
      · rw [Function.update_of_ne hq] at hx
        exact mem_update_handed (h.inFlight q x (hflight ▸ hx))
    failed := by
      intro x hx
      obtain ⟨q, hq⟩ := h.failed x hx
      exact ⟨q, mem_update_handed hq⟩
    noticed := by
      intro q hq
      exact (h.noticed q hq).imp_right fun hwake => .inl (hwake.of_sending hsender) }

theorem Inv.send (h : Inv env σ) (hexec : σ.exec env (.send p) = some σ') : Inv env σ' := by
  obtain ⟨batch, inFlight, item, items, hsender, hbatch, -, rfl⟩ := exec_send hexec
  exact h.sendOne hsender hbatch

/-- The transport has reported an error for a message it got. -/
theorem Inv.fail (h : Inv env σ) (hitem : item ∈ σ.handed p) :
    Inv env { σ with dropped := σ.dropped + 1, failed := σ.failed ++ [item] } where
  known := h.known
  bounded := h.bounded
  fifo := h.fifo
  accounted := h.accounted
  numbered := h.numbered
  tallied := h.tallied
  counted := by
    rw [h.counted, List.length_append]
    rfl
  inFlight := h.inFlight
  failed x hx := by
    rcases List.mem_append.mp hx with hx | hx
    · exact h.failed x hx
    · exact ⟨p, (List.mem_singleton.mp hx) ▸ hitem⟩
  noticed := h.noticed

theorem Inv.answer (h : Inv env σ) (hexec : σ.exec env (.answer p ok) = some σ') : Inv env σ' := by
  obtain ⟨batch, inFlight, item, σ₁, hsender, hitem, rfl, rfl⟩ := exec_answer hexec
  have hflight : σ.sender.inFlight = inFlight := by rw [hsender]; rfl
  have hrest : Inv env { σ with sender := .sending batch (Function.update inFlight p none) } := by
    refine h.of_sender (by rw [hsender]; rfl) (fun q x hx => ?_) fun hwake => .inl (hwake.of_sending hsender)
    change x ∈ Function.update inFlight p none q at hx
    by_cases hq : q = p
    · subst hq
      rw [Function.update_self] at hx
      cases hx
    · rw [Function.update_of_ne hq] at hx
      exact h.inFlight q x (hflight ▸ hx)
  split_ifs
  · exact hrest
  · exact hrest.fail (h.inFlight p item (hflight ▸ hitem))

theorem Inv.join (h : Inv env σ) (hexec : σ.exec env .join = some σ') : Inv env σ' := by
  obtain ⟨batch, inFlight, hsender, hdone, rfl⟩ := exec_join hexec
  refine h.of_sender ?_ (fun p item hitem => ?_) fun hwake => .inl (hwake.of_sending hsender)
  · funext p
    rw [hsender]
    by_cases hp : p ∈ env.peers
    · exact (hdone p hp).1.symm
    · have hknown := h.known p hp
      simp only [Sys.lane, hsender, List.append_eq_nil_iff] at hknown
      exact hknown.2.1.symm
  · cases hitem

theorem Inv.stop (h : Inv env σ) (hexec : σ.exec env .stop = some σ') : Inv env σ' := by
  simp only [Sys.exec] at hexec
  split at hexec
  next hsender hcalls =>
    obtain rfl := Option.some.inj hexec
    refine h.of_sender (by rw [hsender]; rfl) (fun p item hitem => ?_) fun hwake => .inl (hwake.resolve_right ?_)
    · cases hitem
    · rw [hsender]
      exact id
  · cases hexec

theorem Inv.step {a : Action α} (h : Inv env σ) (hexec : σ.exec env a = some σ') : Inv env σ' := by
  cases a with
  | begin messages =>
      simp only [Sys.exec] at hexec
      split at hexec
      · cases hexec
      · obtain rfl := Option.some.inj hexec
        exact h.begin
  | message i => exact h.message hexec
  | count i => exact h.count hexec
  | finish i => exact h.finish hexec
  | wake => exact h.wake hexec
  | drain => exact h.drain hexec
  | send p => exact h.send hexec
  | answer p ok => exact h.answer hexec
  | join => exact h.join hexec
  | stop => exact h.stop hexec

theorem inv_start (env : Env) : Inv env ({} : Sys α) where
  known p hp := rfl
  bounded p := Nat.zero_le _
  fifo p := .refl _
  accounted := by
    have hnone : env.peers.flatMap (fun _ => ([] : List (Item α))) = [] := List.flatMap_eq_nil_iff.mpr fun _ _ => rfl
    simp [Sys.everywhere, Sys.held, Sys.queued, Sys.batched, Sys.handedOver, Sender.batch, hnone]
  numbered := rfl
  tallied call hcall := by cases hcall
  counted := rfl
  inFlight p item hitem := by cases hitem
  failed item hitem := by cases hitem
  noticed p hp := absurd rfl hp

theorem Run.inv {actions : List (Action α)} (h : Run env actions σ) : Inv env σ := by
  refine Transition.Run.invariant (P := fun _ σ => Inv env σ) ?_ ?_ h
  · rintro _ rfl
    exact inv_start env
  · intro _ σ a σ' _ hinv hexec
    exact hinv.step hexec

/-! ## The account -/

/-- **Every message is accounted for**, in every interleaving of enqueue calls and the sender.

* What the transport gets for a peer is a subsequence of what was offered to the peer's queue, in that order.
* No queue is longer than its depth.
* The messages passed in for other nodes are told apart by their numbers, and each of them is in one place: with a call
  that is under way, in a queue, in the batch of the sender, handed to the transport, or counted as lost.
* The counter has the lost messages, and of those that were handed over the ones whose sending failed.
* When no call is under way and a queue is not empty, a signal is pending for the sender. -/
theorem outbound_accounted {actions : List (Action α)} (h : Run env actions σ) :
    (∀ p, (σ.handed p).Sublist (σ.offered.filter (·.1.getTo = p))) ∧
    (∀ p, (σ.queues p).length ≤ outboundQueueDepth) ∧
    (σ.begun.filter (·.1.getTo ≠ env.selfId)).Nodup ∧
    (σ.held env ++ (σ.queued env ++ (σ.batched env ++ (σ.handedOver env ++ σ.lost)))).Perm
      (σ.begun.filter (·.1.getTo ≠ env.selfId)) ∧
    σ.dropped = σ.lost.length + σ.failed.length ∧ (∀ item ∈ σ.failed, ∃ p, item ∈ σ.handed p) ∧
    (σ.calls = [] → ∀ p, σ.queues p ≠ [] → σ.WakePending) := by
  have hinv := h.inv
  refine ⟨fun p => (List.sublist_append_left _ _).trans (hinv.fifo p), hinv.bounded, ?_, hinv.accounted, hinv.counted,
    hinv.failed, fun hcalls p hp => (hinv.noticed p hp).resolve_left ?_⟩
  · have hnumbers : (σ.begun.map Prod.snd).Nodup := hinv.numbered ▸ List.nodup_range
    exact (List.Nodup.of_map _ hnumbers).filter _
  · rintro ⟨call, hcall, -⟩
    rw [hcalls] at hcall
    cases hcall

end

/-- Node 1 with the peers 2 and 3. -/
def threeNodes : Env where
  selfId := 1
  peers := [2, 3]
  nodup := by decide

/-- A call with messages for a peer, for the node itself and for an unknown node is overtaken by another call and by the
sender, which fails to send, before it comes to its last message. -/
def overtakenCall : List (Action Nat) :=
  [.begin [⟨2, 10⟩, ⟨1, 11⟩, ⟨9, 12⟩, ⟨2, 13⟩], .message 0, .message 0, .message 0, .begin [⟨3, 20⟩], .message 1, .finish 1,
    .wake, .drain, .send 2, .answer 2 false, .message 0, .count 0, .finish 0]

theorem outbound_accounted_overtaken : ∃ σ, Run threeNodes overtakenCall σ ∧ σ.handed 2 = [(⟨2, 10⟩, 0)] ∧
    σ.queues 2 = [(⟨2, 13⟩, 3)] ∧ σ.lost = [(⟨9, 12⟩, 2)] ∧ σ.dropped = 2 ∧ σ.WakePending := by
  have heval : (overtakenCall.foldlM (Sys.exec threeNodes) {}).any fun σ => σ.calls = [] ∧ σ.handed 2 = [(⟨2, 10⟩, 0)] ∧
      σ.queues 2 = [(⟨2, 13⟩, 3)] ∧ σ.lost = [(⟨9, 12⟩, 2)] ∧ σ.dropped = 2 := by
    decide +kernel
  obtain ⟨σ, hσ, hfacts⟩ := (Option.any_eq_true _ _).mp heval
  obtain ⟨hcalls, hhanded, hqueue, hlost, hdropped⟩ := of_decide_eq_true hfacts
  have hrun : Run threeNodes overtakenCall σ := Transition.Run.of_foldlM (fun _ _ _ h => h) rfl hσ
  obtain ⟨-, -, -, -, -, -, hwake⟩ := outbound_accounted hrun
  refine ⟨σ, hrun, hhanded, hqueue, hlost, hdropped, hwake hcalls 2 ?_⟩
  rw [hqueue]
  exact List.cons_ne_nil _ _

end Arachne.Consensus.Outbound
