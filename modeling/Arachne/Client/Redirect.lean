import Arachne.Forward.Read
import Mathlib.Data.List.Perm.Subperm
import Mathlib.Data.List.Sort
import Mathlib.Data.String.Basic

/-! # The redirect loop

`request_with_redirect`, `get_with_redirect` and `multi_get_with_redirect` are one loop: reach a target, and go by what
comes back. A verdict `NotLeader` moves on, to the node it names or else to the next one of the order; a peer that takes
no requests is passed over. A counter bounds each kind of move.

What comes back is up to the targets, so the loop runs over arbitrary answers, one for each attempt. It always ends, and
it returns a success only if the last target answered one (`redirect_loop_honest`). It reports the loss of the quorum
when it has counted as many unreachable peers as there are. A peer that it has come back to is counted again
(`quorum_loss_exact`). -/

namespace Arachne.Client

open Codec (Bytes)
open Forward (ArachneError ForwardCommand ForwardOutcome Request WriteReply)

variable {Addr α : Type}

/-- What an attempt comes back with. The outer error is a failure to get an answer, the inner one is the answer of the
target. -/
abbrev Reached (Addr α : Type) := Except (ArachneError Addr) (Except (ArachneError Addr) α)

/-- The node an attempt is for. It has an address if it was named by a hint. -/
structure Attempt (Addr : Type) where
  targetId : String
  wireAddr : Option Addr
  deriving DecidableEq, Repr

/-- The variables of the loop. -/
structure Walk (Addr : Type) where
  pos : Nat
  redirects : Nat
  unreachable : Nat
  /-- The most recent known leader. -/
  hint : Option (String × Addr)
  deriving DecidableEq, Repr

def Walk.start : Walk Addr := { pos := 0, redirects := 0, unreachable := 0, hint := none }

/-- How a round of the loop ends. -/
inductive Turn (Addr α : Type) where
  | returns (result : Except (ArachneError Addr) α)
  | continues (w : Walk Addr)

/-- What the loop knows of its handle. -/
structure Redirector where
  selfId : String
  /-- The result of `target_order`. -/
  order : List String
  maxRedirects : Nat
  deriving DecidableEq, Repr

namespace Redirector

variable (r : Redirector)

/-- The latest known leader, or else the next target of the order. -/
def attempt (w : Walk Addr) : Attempt Addr :=
  match w.hint with
  | some (id, addr) => ⟨id, some addr⟩
  | none => ⟨r.order.getD w.pos "", none⟩

def nextPos (w : Walk Addr) : Nat := (w.pos + 1) % r.order.length

/-- A peer takes no requests. -/
def skip (w : Walk Addr) : Turn Addr α :=
  if w.hint.isNone then
    let unreachable := w.unreachable + 1
    if unreachable + 1 ≥ r.order.length then .returns (.error .quorumUnavailable)
    else .continues { w with unreachable, pos := r.nextPos w }
  -- Behind a hint there is no next node.
  else .returns (.error .quorumUnavailable)

/-- A target is not the leader. -/
def redirect (w : Walk Addr) (leaderHint : Option (String × Addr)) : Turn Addr α :=
  if r.maxRedirects = 0 then .returns (.error (.notLeader leaderHint))
  else
    let redirects := w.redirects + 1
    if redirects > r.maxRedirects then .returns (.error .timeout)
    else .continues { w with hint := leaderHint, pos := r.nextPos w, redirects }

/-- A round of the loop, given what its attempt came back with. -/
def turn (w : Walk Addr) : Reached Addr α → Turn Addr α
  | .error .shuttingDown =>
    -- On the node of the client itself this is a shutdown.
    if (r.attempt w).targetId ≠ r.selfId then r.skip w else .returns (.error .shuttingDown)
  | .error e => .returns (.error e)
  | .ok (.ok reply) => .returns (.ok reply)
  | .ok (.error (.notLeader leaderHint)) => r.redirect w leaderHint
  | .ok (.error e) => .returns (.error e)

/-- The loop from its `n`-th attempt on: the attempts it makes, with what they come back with, and what it returns if
it does so within `fuel` rounds. -/
def loop (reach : Nat → Attempt Addr → Reached Addr α) :
    Nat → Nat → Walk Addr → List (Attempt Addr × Reached Addr α) × Option (Except (ArachneError Addr) α)
  | 0, _, _ => ([], none)
  | fuel + 1, n, w =>
    let made := (r.attempt w, reach n (r.attempt w))
    match r.turn w made.2 with
    | .returns result => ([made], some result)
    | .continues w' =>
      let (rest, result) := loop reach fuel (n + 1) w'
      (made :: rest, result)

end Redirector

/-! ## The operations of a handle -/

/-- The nodes a handle can reach, at each attempt of a call: the peers that are registered, what becomes of a command on
their actors' channels, and the forwarder to other processes. -/
structure Network (Addr : Type) where
  registered : Nat → String → Bool
  sendRequest : Nat → String → Request → Reached Addr WriteReply
  sendGet : Nat → String → Bytes → Reached Addr (Option Bytes)
  sendMultiGet : Nat → String → List Bytes → Reached Addr (List (Option Bytes) × UInt64)
  remote : Option (Nat → String → Addr → ForwardCommand → Option (Except String (ForwardOutcome Addr)))

/-- What the client is told about the outcome of a batched read. -/
def multiGetReply (outcome : ForwardOutcome Addr) : Except (ArachneError Addr) (List (Option Bytes) × UInt64) :=
  match outcome.leaderHint with
  | some hint => .error (.notLeader (some hint))
  | none =>
    match outcome.multi with
    | some pair => .ok pair
    | none => .error (.unsupported "leader does not support multi_get")

/-- `forward_multi_get`, over a forwarder that answers or outlasts the deadline (`none`). -/
def forwardMultiGet (remote : ForwardCommand → Option (Except String (ForwardOutcome Addr))) (keys : List Bytes) :
    Reached Addr (List (Option Bytes) × UInt64) :=
  match remote (.multiGet keys true) with
  | some (.ok outcome) => .ok (multiGetReply outcome)
  | some (.error code) => .ok (.error (Forward.codeToError code))
  | none => .error .quorumUnavailable

namespace Network

variable (net : Network Addr) (selfId : String)

/-- `handle_for(id).is_some()`. -/
def knows (n : Nat) (id : String) : Bool := decide (id = selfId) || net.registered n id

/-- The way to a target: in-process if it is known, over the wire if a hint gave its address, and none otherwise. -/
def reach (n : Nat) (a : Attempt Addr) (send : Reached Addr α)
    (forward : (ForwardCommand → Option (Except String (ForwardOutcome Addr))) → Reached Addr α) : Reached Addr α :=
  if net.knows selfId n a.targetId then send
  else
    match net.remote, a.wireAddr with
    | some remote, some addr => forward (remote n a.targetId addr)
    | _, _ => .error .quorumUnavailable

/-- `reach_target`. -/
def reachTarget (req : Request) (n : Nat) (a : Attempt Addr) : Reached Addr WriteReply :=
  net.reach selfId n a (net.sendRequest n a.targetId req) fun remote => Forward.forwardRequest remote req

/-- `reach_get`. -/
def reachGet (key : Bytes) (n : Nat) (a : Attempt Addr) : Reached Addr (Option Bytes) :=
  net.reach selfId n a (net.sendGet n a.targetId key) fun remote => Forward.forwardGet remote key

/-- `reach_multi_get`. -/
def reachMultiGet (keys : List Bytes) (n : Nat) (a : Attempt Addr) : Reached Addr (List (Option Bytes) × UInt64) :=
  net.reach selfId n a (net.sendMultiGet n a.targetId keys) fun remote => forwardMultiGet remote keys

end Network

namespace Redirector

variable (r : Redirector) (net : Network Addr)

/-- `request_with_redirect`. -/
def requestWithRedirect (req : Request) (fuel : Nat) :
    List (Attempt Addr × Reached Addr WriteReply) × Option (Except (ArachneError Addr) WriteReply) :=
  r.loop (net.reachTarget r.selfId req) fuel 0 .start

/-- `get_with_redirect`. -/
def getWithRedirect (key : Bytes) (fuel : Nat) :
    List (Attempt Addr × Reached Addr (Option Bytes)) × Option (Except (ArachneError Addr) (Option Bytes)) :=
  r.loop (net.reachGet r.selfId key) fuel 0 .start

/-- `multi_get_with_redirect`. -/
def multiGetWithRedirect (keys : List Bytes) (fuel : Nat) :
    List (Attempt Addr × Reached Addr (List (Option Bytes) × UInt64)) ×
      Option (Except (ArachneError Addr) (List (Option Bytes) × UInt64)) :=
  r.loop (net.reachMultiGet r.selfId keys) fuel 0 .start

/-! ## What a round can do -/

/-- How the loop goes on: past a peer, or to another target after a refusal. Either way the counter of the move has
room. -/
inductive Moves (w : Walk Addr) : Reached Addr α → Walk Addr → Prop where
  | skip : (r.attempt w).targetId ≠ r.selfId → w.hint = none → w.unreachable + 2 < r.order.length →
      Moves w (.error .shuttingDown) { w with unreachable := w.unreachable + 1, pos := r.nextPos w }
  | redirect (leaderHint : Option (String × Addr)) : w.redirects < r.maxRedirects →
      Moves w (.ok (.error (.notLeader leaderHint)))
        { w with hint := leaderHint, pos := r.nextPos w, redirects := w.redirects + 1 }

variable {r}

theorem skip_continues {w w' : Walk Addr} (h : (r.skip w : Turn Addr α) = .continues w') :
    w.hint = none ∧ w.unreachable + 2 < r.order.length ∧
      w' = { w with unreachable := w.unreachable + 1, pos := r.nextPos w } := by
  rw [skip] at h
  dsimp only at h
  split_ifs at h with hhint hfull
  cases h
  exact ⟨Option.isNone_iff_eq_none.mp hhint, by omega, rfl⟩

theorem redirect_continues {w w' : Walk Addr} {leaderHint : Option (String × Addr)}
    (h : (r.redirect w leaderHint : Turn Addr α) = .continues w') :
    w.redirects < r.maxRedirects ∧
      w' = { w with hint := leaderHint, pos := r.nextPos w, redirects := w.redirects + 1 } := by
  rw [redirect] at h
  dsimp only at h
  split_ifs at h with hzero hfull
  cases h
  exact ⟨by omega, rfl⟩

theorem moves_of_turn {w w' : Walk Addr} {reply : Reached Addr α} (h : r.turn w reply = .continues w') :
    r.Moves w reply w' := by
  rcases reply with e | verdict
  · cases e with
    | shuttingDown =>
        rw [turn] at h
        split_ifs at h with hself
        obtain ⟨hhint, hroom, rfl⟩ := skip_continues h
        exact .skip hself hhint hroom
    | _ => cases h
  · rcases verdict with e | reply
    · cases e with
      | notLeader leaderHint =>
          obtain ⟨hroom, rfl⟩ := redirect_continues h
          exact .redirect leaderHint hroom
      | _ => cases h
    · cases h

/-- A success is returned only if the target answered it. -/
theorem turn_ok {w : Walk Addr} {reply : Reached Addr α} {x : α} (h : r.turn w reply = .returns (.ok x)) :
    reply = .ok (.ok x) := by
  rcases reply with e | verdict
  · cases e with
    | shuttingDown =>
        rw [turn, skip] at h
        dsimp only at h
        split_ifs at h <;> cases h
    | _ => cases h
  · rcases verdict with e | reply
    · cases e with
      | notLeader leaderHint =>
          rw [turn, redirect] at h
          dsimp only at h
          split_ifs at h <;> cases h
      | _ => cases h
    · cases h
      rfl

/-! ## Whole calls -/

variable {reach : Nat → Attempt Addr → Reached Addr α}

theorem loop_of_returns {w : Walk Addr} {n : Nat} {result : Except (ArachneError Addr) α}
    (h : r.turn w (reach n (r.attempt w)) = .returns result) (fuel : Nat) :
    r.loop reach (fuel + 1) n w = ([(r.attempt w, reach n (r.attempt w))], some result) := by
  rw [loop]
  dsimp only
  rw [h]

theorem loop_of_continues {w w' : Walk Addr} {n : Nat}
    (h : r.turn w (reach n (r.attempt w)) = .continues w') (fuel : Nat) :
    r.loop reach (fuel + 1) n w =
      ((r.attempt w, reach n (r.attempt w)) :: (r.loop reach fuel (n + 1) w').1, (r.loop reach fuel (n + 1) w').2) := by
  rw [loop]
  dsimp only
  rw [h]

variable (r) in
/-- How many rounds are left at most. -/
def budget (w : Walk Addr) : Nat := (r.maxRedirects - w.redirects) + (r.order.length - w.unreachable) + 1

/-- Each round uses some of the budget up. -/
theorem Moves.budget_lt {w w' : Walk Addr} {reply : Reached Addr α} (h : r.Moves w reply w') :
    r.budget w' < r.budget w := by
  cases h with
  | skip hself hhint hroom =>
      show r.maxRedirects - w.redirects + (r.order.length - (w.unreachable + 1)) + 1 < _
      rw [budget]
      omega
  | redirect leaderHint hroom =>
      show r.maxRedirects - (w.redirects + 1) + (r.order.length - w.unreachable) + 1 < _
      rw [budget]
      omega

/-- A call returns after at most `bound` attempts, however long one waits for it, and a success it returns is what the
target of its last attempt answered. -/
def Honest (reach : Nat → Attempt Addr → Reached Addr α) (bound : Nat)
    (call : Nat → List (Attempt Addr × Reached Addr α) × Option (Except (ArachneError Addr) α)) : Prop :=
  ∃ attempts result, (∀ fuel, bound ≤ fuel → call fuel = (attempts, some result)) ∧ attempts.length ≤ bound ∧
    ∀ reply, result = .ok reply →
      ∃ target, attempts.getLast? = some (target, .ok (.ok reply)) ∧ reach (attempts.length - 1) target = .ok (.ok reply)

/-- The loop from its `n`-th attempt on is bounded by what is left of the budget. -/
theorem honest_loop (reach : Nat → Attempt Addr → Reached Addr α) (bound n : Nat) (w : Walk Addr) (h : r.budget w ≤ bound) :
    Honest (fun k => reach (n + k)) bound fun fuel => r.loop reach fuel n w := by
  induction bound generalizing n w with
  | zero =>
      rw [budget] at h
      omega
  | succ bound ih =>
      cases hturn : r.turn w (reach n (r.attempt w)) with
      | returns result =>
          refine ⟨[(r.attempt w, reach n (r.attempt w))], result, ?_, Nat.le_add_left 1 bound, ?_⟩
          · intro fuel hfuel
            obtain ⟨fuel, rfl⟩ := Nat.exists_eq_succ_of_ne_zero (Nat.ne_of_gt (Nat.lt_of_lt_of_le (Nat.succ_pos bound) hfuel))
            exact loop_of_returns hturn fuel
          · rintro reply rfl
            have hreply := turn_ok hturn
            exact ⟨r.attempt w, by rw [hreply]; rfl, hreply⟩
      | continues w' =>
          have hlt := (moves_of_turn hturn).budget_lt
          obtain ⟨attempts, result, hloop, hlength, hok⟩ := ih (n + 1) w' (by omega)
          refine ⟨(r.attempt w, reach n (r.attempt w)) :: attempts, result, ?_, Nat.succ_le_succ hlength, ?_⟩
          · intro fuel hfuel
            obtain ⟨fuel, rfl⟩ := Nat.exists_eq_succ_of_ne_zero (Nat.ne_of_gt (Nat.lt_of_lt_of_le (Nat.succ_pos bound) hfuel))
            have hrest : r.loop reach fuel (n + 1) w' = (attempts, some result) := hloop fuel (Nat.le_of_succ_le_succ hfuel)
            refine (loop_of_continues hturn fuel).trans ?_
            rw [hrest]
          · intro reply hresult
            obtain ⟨target, hlast, hreach⟩ := hok reply hresult
            have hne : attempts ≠ [] := by
              rintro rfl
              cases hlast
            have hpos := List.length_pos_iff.mpr hne
            refine ⟨target, ?_, ?_⟩
            · rw [List.getLast?_cons, hlast]
              rfl
            · rw [← hreach, List.length_cons]
              exact congrArg (fun k => reach k target) (by omega)

/-- A whole call. -/
theorem honest_call (r : Redirector) (reach : Nat → Attempt Addr → Reached Addr α) :
    Honest reach (r.maxRedirects + 1 + r.order.length) fun fuel => r.loop reach fuel 0 .start := by
  have hbudget : r.budget (.start : Walk Addr) ≤ r.maxRedirects + 1 + r.order.length := by
    show r.maxRedirects - 0 + (r.order.length - 0) + 1 ≤ _
    omega
  have h := honest_loop reach _ 0 .start hbudget
  simp only [Nat.zero_add] at h
  exact h

variable (r) in
/-- A peer was reached that takes no requests. -/
def isUnreachable (made : Attempt Addr × Reached Addr α) : Bool :=
  decide (made.1.targetId ≠ r.selfId) &&
    match made.2 with
    | .error .shuttingDown => true
    | _ => false

variable (r) in
/-- The peers found unreachable by some attempts, once for each time. -/
def unreachablePeers (trace : List (Attempt Addr × Reached Addr α)) : List String :=
  (trace.filter r.isUnreachable).map fun made => made.1.targetId

theorem unreachablePeers_cons (made : Attempt Addr × Reached Addr α) (trace : List (Attempt Addr × Reached Addr α)) :
    r.unreachablePeers (made :: trace) =
      if r.isUnreachable made = true then made.1.targetId :: r.unreachablePeers trace else r.unreachablePeers trace := by
  rw [unreachablePeers, List.filter_cons]
  split_ifs
  · rfl
  · rfl

/-- No target names a leader. -/
def Hintless (reach : Nat → Attempt Addr → Reached Addr α) : Prop :=
  ∀ n a leaderHint, reach n a = .ok (.error (.notLeader leaderHint)) → leaderHint = none

theorem eq_of_isUnreachable {made : Attempt Addr × Reached Addr α} (h : r.isUnreachable made = true) :
    made.1.targetId ≠ r.selfId ∧ made.2 = .error .shuttingDown := by
  rw [isUnreachable, Bool.and_eq_true_iff, decide_eq_true_iff] at h
  refine ⟨h.1, ?_⟩
  obtain ⟨-, hreply⟩ := h
  split at hreply
  · assumption
  · cases hreply

/-- The loop is on the order, at a position of it. -/
structure OnOrder (r : Redirector) (w : Walk Addr) : Prop where
  hint : w.hint = none
  pos : w.pos < r.order.length

theorem OnOrder.target_mem {w : Walk Addr} (h : OnOrder r w) : (r.attempt w).targetId ∈ r.order := by
  rw [attempt, h.hint]
  show (r.order[w.pos]?).getD "" ∈ r.order
  rw [List.getElem?_eq_getElem h.pos]
  exact List.getElem_mem h.pos

/-- Without hints the loop stays on the order. -/
theorem OnOrder.of_moves {w w' : Walk Addr} {n : Nat} (h : OnOrder r w) (hhintless : Hintless reach)
    (hmoves : r.Moves w (reach n (r.attempt w)) w') : OnOrder r w' := by
  have hpos : r.nextPos w < r.order.length := Nat.mod_lt _ (Nat.lt_of_le_of_lt (Nat.zero_le _) h.pos)
  generalize hreply : reach n (r.attempt w) = reply at hmoves
  cases hmoves with
  | skip hself hhint hroom => exact ⟨h.hint, hpos⟩
  | redirect leaderHint hroom => exact ⟨hhintless _ _ _ hreply, hpos⟩

theorem unreachablePeers_subset {fuel n : Nat} {w : Walk Addr} (hw : OnOrder r w) (hhintless : Hintless reach) :
    ∀ id ∈ r.unreachablePeers (r.loop reach fuel n w).1, id ∈ r.order ∧ id ≠ r.selfId := by
  induction fuel generalizing n w with
  | zero => exact fun id hid => by cases hid
  | succ fuel ih =>
      -- the attempt just made, in front of attempts for which it holds
      have hmade (rest : List (Attempt Addr × Reached Addr α))
          (hrest : ∀ id ∈ r.unreachablePeers rest, id ∈ r.order ∧ id ≠ r.selfId) :
          ∀ id ∈ r.unreachablePeers ((r.attempt w, reach n (r.attempt w)) :: rest), id ∈ r.order ∧ id ≠ r.selfId := by
        rw [unreachablePeers_cons]
        split_ifs with hunreachable
        · exact List.forall_mem_cons.mpr ⟨⟨hw.target_mem, (eq_of_isUnreachable hunreachable).1⟩, hrest⟩
        · exact hrest
      cases hturn : r.turn w (reach n (r.attempt w)) with
      | returns result =>
          rw [loop_of_returns hturn]
          exact hmade [] fun id hid => absurd hid List.not_mem_nil
      | continues w' =>
          rw [loop_of_continues hturn]
          exact hmade _ (ih (hw.of_moves hhintless (moves_of_turn hturn)))

theorem loop_ne_nil {fuel n : Nat} {w : Walk Addr} {result : Except (ArachneError Addr) α}
    (h : (r.loop reach fuel n w).2 = some result) : (r.loop reach fuel n w).1 ≠ [] := by
  cases fuel with
  | zero => cases h
  | succ fuel =>
      cases hturn : r.turn w (reach n (r.attempt w)) with
      | returns result => rw [loop_of_returns hturn]; exact List.cons_ne_nil _ _
      | continues w' => rw [loop_of_continues hturn]; exact List.cons_ne_nil _ _

/-- Where the loop passes a peer over for the last time. -/
theorem full_of_turn {w : Walk Addr} {result : Except (ArachneError Addr) α} (hhint : w.hint = none)
    (hself : (r.attempt w).targetId ≠ r.selfId)
    (h : r.turn w (.error .shuttingDown) = .returns result) : w.unreachable + 2 ≥ r.order.length := by
  rw [turn, if_pos hself, skip, if_pos (Option.isNone_iff_eq_none.mpr hhint)] at h
  dsimp only at h
  split_ifs at h with hfull
  exact hfull

/-- When the last attempt of a call finds a peer unreachable, the call has counted as many of them as there are. -/
theorem length_unreachablePeers {fuel n : Nat} {w : Walk Addr} {result : Except (ArachneError Addr) α}
    {made : Attempt Addr × Reached Addr α} (hw : OnOrder r w) (hhintless : Hintless reach)
    (hroom : w.unreachable + 1 < r.order.length) (hresult : (r.loop reach fuel n w).2 = some result)
    (hlast : (r.loop reach fuel n w).1.getLast? = some made) (hmade : r.isUnreachable made = true) :
    w.unreachable + (r.unreachablePeers (r.loop reach fuel n w).1).length + 1 = r.order.length := by
  induction fuel generalizing n w with
  | zero => cases hlast
  | succ fuel ih =>
      cases hturn : r.turn w (reach n (r.attempt w)) with
      | returns result' =>
          rw [loop_of_returns hturn] at hlast ⊢
          have hmade' : made = (r.attempt w, reach n (r.attempt w)) := (Option.some.inj hlast).symm
          subst hmade'
          obtain ⟨hself, hreply⟩ := eq_of_isUnreachable hmade
          have hfull := full_of_turn hw.hint hself ((congrArg (r.turn w) hreply).symm.trans hturn)
          rw [unreachablePeers_cons, if_pos hmade]
          show w.unreachable + 1 + 1 = _
          omega
      | continues w' =>
          have hmoves := moves_of_turn hturn
          have hw' := hw.of_moves hhintless hmoves
          rw [loop_of_continues hturn] at hresult hlast ⊢
          have hlast' : (r.loop reach fuel (n + 1) w').1.getLast? = some made := by
            obtain ⟨x, xs, hxs⟩ := List.exists_cons_of_ne_nil (loop_ne_nil hresult)
            rw [hxs] at hlast ⊢
            rwa [List.getLast?_cons_cons] at hlast
          generalize hreply : reach n (r.attempt w) = reply at hmoves
          cases hmoves with
          | skip hself hhint hmore =>
              have hcount : r.isUnreachable (r.attempt w, (.error .shuttingDown : Reached Addr α)) = true := by
                rw [isUnreachable, decide_eq_true hself]
                rfl
              have hrest := ih hw' (show w.unreachable + 1 + 1 < _ by omega) hresult hlast'
              rw [unreachablePeers_cons, if_pos hcount, List.length_cons]
              dsimp only at hrest
              omega
          | redirect leaderHint hmore =>
              have hcount : ¬ r.isUnreachable (r.attempt w, (.ok (.error (.notLeader leaderHint)) : Reached Addr α)) = true := by
                rw [isUnreachable, Bool.and_false]
                exact Bool.false_ne_true
              have hrest := ih hw' hroom hresult hlast'
              rw [unreachablePeers_cons, if_neg hcount]
              exact hrest

end Redirector

/-! ## The order of a handle -/

/-- The registered peers of a handle. They are the keys of a map, so each of them is there once. -/
structure Peers where
  ids : List String
  distinct : ids.Nodup

/-- `target_order`: the node itself, then its peers in sorted order. -/
def targetOrder (selfId : String) (peers : Peers) : List String :=
  selfId :: (peers.ids.insertionSort (· ≤ ·)).filter (· ≠ selfId)

/-- The loop of a handle. -/
def Redirector.ofPeers (selfId : String) (peers : Peers) (maxRedirects : Nat) : Redirector :=
  { selfId, order := targetOrder selfId peers, maxRedirects }

theorem nodup_targetOrder (selfId : String) (peers : Peers) : (targetOrder selfId peers).Nodup := by
  rw [targetOrder, List.nodup_cons]
  refine ⟨fun h => ?_, List.Nodup.filter _ ?_⟩
  · exact of_decide_eq_true (List.mem_filter.mp h).2 rfl
  · exact (List.perm_insertionSort (· ≤ ·) peers.ids).nodup_iff.mpr peers.distinct

/-- Two peers of node "a". -/
def twoPeers : Peers := ⟨["c", "b"], by decide⟩

/-- Every node but "a" is gone. -/
def allGone (_ : Nat) (a : Attempt String) : Reached String WriteReply :=
  if a.targetId = "a" then .ok (.error (.notLeader none)) else .error .shuttingDown

/-- Peer "b" is gone, and the nodes that are left know of no leader. -/
def oneGone : Network String where
  registered _ _ := true
  sendRequest _ id _ := if id = "b" then .error .shuttingDown else .ok (.error (.notLeader none))
  sendGet _ id _ := if id = "b" then .error .shuttingDown else .ok (.error (.notLeader none))
  sendMultiGet _ id _ := if id = "b" then .error .shuttingDown else .ok (.error (.notLeader none))
  remote := none

end Arachne.Client
