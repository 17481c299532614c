import Arachne.Consensus.Outbound

/-! # The sender comes to rest

A signal is pending for every filled queue, so the sender cannot sleep on a message. Left alone by the enqueue calls, it
has a bounded number of steps to make (`Sys.work`), whatever order its futures are polled in and whatever the transport
answers; and it has a next step until every message has been handed over or counted (`sender_settles`). -/

namespace Arachne.Consensus.Outbound

variable {α : Type}

/-- What the sender does while the node lives. -/
def Action.OfSender : Action α → Prop
  | .wake | .drain | .send _ | .answer _ _ | .join => True
  | .begin _ | .message _ | .count _ | .finish _ | .stop => False

def Sender.Live : Sender α → Prop
  | .stopped => False
  | _ => True

/-- How far the sender is from waiting for the next signal, apart from its batch. -/
def Sender.phase : Sender α → Nat
  | .woken => 2
  | .sending _ _ => 1
  | .idle | .stopped => 0

namespace Sys

variable (env : Env) (σ : Sys α)

/-- Handed over and not yet answered. -/
def unanswered : List (Item α) := env.peers.flatMap fun p => (σ.sender.inFlight p).toList

/-- A bound of the steps the sender has left: a signal is received, acted on and done with, and a message is sent and
answered. -/
def work : Nat :=
  3 * σ.wakes + σ.sender.phase + 2 * ((σ.queued env).length + (σ.batched env).length) + (σ.unanswered env).length

end Sys

/-- A step of the sender leaves the calls alone and comes nearer to the end. -/
structure Progress (env : Env) (σ σ' : Sys α) : Prop where
  calls : σ'.calls = σ.calls
  begun : σ'.begun = σ.begun
  live : σ'.sender.Live
  work : σ'.work env < σ.work env

section

variable {env : Env} {σ σ' : Sys α} {p : UInt64} {ok : Bool}

/-! ## A step of the sender -/

theorem progress_wake (hexec : σ.exec env .wake = some σ') : Progress env σ σ' := by
  obtain ⟨hsender, hwakes, rfl⟩ := exec_wake hexec
  refine ⟨rfl, rfl, trivial, ?_⟩
  simp only [Sys.work, Sys.queued, Sys.batched, Sys.unanswered, hsender, Sender.batch, Sender.inFlight, Sender.phase]
  omega

theorem Inv.progress_drain (h : Inv env σ) (hexec : σ.exec env .drain = some σ') : Progress env σ σ' := by
  obtain ⟨hsender, rfl⟩ := exec_drain hexec
  have hqueued : (σ.takeAll env).queued env = [] := List.flatMap_eq_nil_iff.mpr fun _ _ => rfl
  have hbatched : (σ.takeAll env).batched env = σ.queued env := by rw [Sys.batched, h.batch_takeAll, Sys.queued]
  have hunanswered : (σ.takeAll env).unanswered env = [] := by
    refine List.flatMap_eq_nil_iff.mpr fun p _ => ?_
    rw [inFlight_takeAll]
    rfl
  have hnext : (σ.takeAll env).sender.Live ∧ (σ.takeAll env).sender.phase ≤ 1 := by
    rcases sender_takeAll env σ with hnext | hnext <;> rw [hnext]
    · exact ⟨trivial, Nat.zero_le 1⟩
    · exact ⟨trivial, Nat.le_refl 1⟩
  refine ⟨rfl, rfl, hnext.1, ?_⟩
  have hphase : (σ.takeAll env).sender.phase < σ.sender.phase := by
    rw [hsender]
    exact Nat.lt_succ_of_le hnext.2
  have hwakes : (σ.takeAll env).wakes = σ.wakes := rfl
  rw [Sys.work, Sys.work, hqueued, hbatched, hunanswered, hwakes]
  simp only [List.length_nil]
  omega

/-- How many answers are missing when the message in flight for one peer changes. -/
theorem length_unanswered_update (hpeer : p ∈ env.peers) (inFlight : UInt64 → Option (Item α)) (x : Option (Item α)) :
    (env.peers.flatMap fun q => (Function.update inFlight p x q).toList).length + (inFlight p).toList.length =
      (env.peers.flatMap fun q => (inFlight q).toList).length + x.toList.length := by
  have hupdate : (fun q => (Function.update inFlight p x q).toList) =
      Function.update (fun q => (inFlight q).toList) p x.toList := by
    funext q
    exact Function.apply_update (fun _ => Option.toList) inFlight p x q
  rw [hupdate, ← List.length_append, ← List.length_append]
  exact (Family.flatMap_update_perm env.nodup hpeer _ _).length_eq

theorem Inv.progress_send (h : Inv env σ) (hexec : σ.exec env (.send p) = some σ') : Progress env σ σ' := by
  obtain ⟨batch, inFlight, item, items, hsender, hbatch, hflight, rfl⟩ := exec_send hexec
  have hpeer := h.mem_peers_of_batch hsender hbatch
  rw [Sys.sendOne, if_pos hpeer]
  refine ⟨rfl, rfl, trivial, ?_⟩
  have hbatched := (Family.flatMap_update_perm env.nodup hpeer batch items).length_eq
  have hunanswered := length_unanswered_update hpeer inFlight (some item)
  rw [hbatch] at hbatched
  rw [hflight] at hunanswered
  simp only [List.length_append, List.length_cons, List.length_nil, Option.toList_some, Option.toList_none]
    at hbatched hunanswered
  simp only [Sys.work, Sys.queued, Sys.batched, Sys.unanswered, hsender, Sender.batch, Sender.inFlight, Sender.phase]
  omega

theorem Inv.progress_answer (h : Inv env σ) (hexec : σ.exec env (.answer p ok) = some σ') : Progress env σ σ' := by
  obtain ⟨batch, inFlight, item, σ₁, hsender, hflight, rfl, rfl⟩ := exec_answer hexec
  have hpeer : p ∈ env.peers := by
    -- what is in flight for a peer was handed over for it
    have hhanded : item ∈ σ.handed p := h.inFlight p item (by rw [hsender]; exact hflight)
    exact h.mem_peers (List.append_ne_nil_of_left_ne_nil (List.ne_nil_of_mem hhanded) _)
  have hunanswered := length_unanswered_update hpeer inFlight none
  rw [hflight] at hunanswered
  simp only [Option.toList_some, Option.toList_none, List.length_cons, List.length_nil] at hunanswered
  have hwork : Sys.work env { σ with sender := .sending batch (Function.update inFlight p none) } < σ.work env := by
    simp only [Sys.work, Sys.queued, Sys.batched, Sys.unanswered, hsender, Sender.batch, Sender.inFlight, Sender.phase]
    omega
  split_ifs
  · exact ⟨rfl, rfl, trivial, hwork⟩
  · exact ⟨rfl, rfl, trivial, hwork⟩

theorem progress_join (hexec : σ.exec env .join = some σ') : Progress env σ σ' := by
  obtain ⟨batch, inFlight, hsender, hdone, rfl⟩ := exec_join hexec
  refine ⟨rfl, rfl, trivial, ?_⟩
  have hbatched : env.peers.flatMap batch = [] := List.flatMap_eq_nil_iff.mpr fun p hp => (hdone p hp).1
  simp only [Sys.work, Sys.queued, Sys.batched, Sys.unanswered, hsender, Sender.batch, Sender.inFlight, Sender.phase,
    hbatched]
  simp
  omega

theorem Inv.progress {a : Action α} (h : Inv env σ) (ha : a.OfSender) (hexec : σ.exec env a = some σ') :
    Progress env σ σ' := by
  cases a with
  | wake => exact progress_wake hexec
  | drain => exact h.progress_drain hexec
  | send p => exact h.progress_send hexec
  | answer p ok => exact h.progress_answer hexec
  | join => exact progress_join hexec
  | begin | message | count | finish | stop => exact ha.elim

/-! ## A next step -/

/-- A sender that has no step left waits for a signal, and there is none. -/
theorem idle_of_stuck (hlive : σ.sender.Live) (hstuck : ∀ a, a.OfSender → σ.exec env a = none) :
    σ.sender = .idle ∧ σ.wakes = 0 := by
  cases hsender : σ.sender with
  | idle =>
      have hwake := hstuck .wake trivial
      simp only [Sys.exec, hsender] at hwake
      refine ⟨rfl, Nat.eq_zero_of_not_pos fun hwakes => ?_⟩
      rw [if_pos hwakes] at hwake
      cases hwake
  | woken =>
      have hdrain := hstuck .drain trivial
      simp only [Sys.exec, hsender] at hdrain
      cases hdrain
  | sending batch inFlight =>
      -- no answer is missing and nothing is left to send, so the futures can be joined
      have hflight : ∀ p, inFlight p = none := by
        intro p
        have hanswer := hstuck (.answer p true) trivial
        simp only [Sys.exec, hsender] at hanswer
        cases hp : inFlight p with
        | none => rfl
        | some item => simp [hp] at hanswer
      have hbatch : ∀ p, batch p = [] := by
        intro p
        have hsend := hstuck (.send p) trivial
        simp only [Sys.exec, hsender] at hsend
        cases hp : batch p with
        | nil => rfl
        | cons item items => simp [hp, hflight p] at hsend
      have hjoin := hstuck .join trivial
      simp [Sys.exec, hsender, hbatch, hflight] at hjoin
  | stopped =>
      rw [hsender] at hlive
      exact hlive.elim

/-- **At rest**, with no call under way, every message is handed over or counted. -/
theorem Inv.settled (h : Inv env σ) (hcalls : σ.calls = []) (hidle : σ.sender = .idle) (hwakes : σ.wakes = 0) :
    (σ.handedOver env ++ σ.lost).Perm (σ.begun.filter (·.1.getTo ≠ env.selfId)) := by
  have hqueues : ∀ p, σ.queues p = [] := by
    intro p
    refine Decidable.byContradiction fun hp => ?_
    rcases h.noticed p hp with ⟨call, hcall, -⟩ | hwake | hwoken
    · rw [hcalls] at hcall
      cases hcall
    · exact absurd hwakes (Nat.ne_of_gt hwake)
    · rw [hidle] at hwoken
      exact hwoken
  have hqueued : σ.queued env = [] := List.flatMap_eq_nil_iff.mpr fun p _ => hqueues p
  have hbatched : σ.batched env = [] := by
    rw [Sys.batched, hidle]
    exact List.flatMap_eq_nil_iff.mpr fun _ _ => rfl
  have hheld : σ.held env = [] := by rw [Sys.held, hcalls, List.flatMap_nil]
  have haccounted := h.accounted
  rwa [Sys.everywhere, hheld, hqueued, hbatched] at haccounted

/-! ## The sender left alone -/

/-- **The sender settles.** From any state of a run in which no enqueue call is under way, however the sender goes on by
itself, it makes at most `work` steps, and where it has none left the transport has got every message passed in for
another node, apart from those the counter has. -/
theorem sender_settles {actions more : List (Action α)} (h : Run env actions σ) (hcalls : σ.calls = [])
    (hlive : σ.sender.Live) (hmore : ∀ a ∈ more, a.OfSender) (hrun : more.foldlM (Sys.exec env) σ = some σ') :
    more.length ≤ σ.work env ∧ ((∀ a, a.OfSender → σ'.exec env a = none) →
      (σ'.handedOver env ++ σ'.lost).Perm (σ.begun.filter (·.1.getTo ≠ env.selfId))) := by
  have hinv := h.inv
  clear h
  induction more generalizing σ with
  | nil =>
      obtain rfl := Option.some.inj hrun
      refine ⟨Nat.zero_le _, fun hstuck => ?_⟩
      obtain ⟨hidle, hwakes⟩ := idle_of_stuck hlive hstuck
      exact hinv.settled hcalls hidle hwakes
  | cons a more ih =>
      obtain ⟨ha, hmore⟩ := List.forall_mem_cons.mp hmore
      rw [List.foldlM_cons] at hrun
      obtain ⟨σ₁, hexec, hrun⟩ := Option.bind_eq_some_iff.mp hrun
      have hstep := hinv.progress ha hexec
      obtain ⟨hlength, hsettled⟩ := ih (hstep.calls.trans hcalls) hstep.live hmore hrun (hinv.step hexec)
      rw [hstep.begun] at hsettled
      exact ⟨Nat.lt_of_le_of_lt hlength hstep.work, hsettled⟩

end

/-- With the two steps after the call has ended. -/
theorem sender_settles_overtaken : ∃ σ, Run threeNodes overtakenCall σ ∧ 2 ≤ σ.work threeNodes := by
  have heval : (overtakenCall.foldlM (Sys.exec threeNodes) {}).any fun σ => σ.calls = [] ∧ σ.sender.phase = 1 ∧
      ([Action.send 3, .answer 3 true].foldlM (Sys.exec threeNodes) σ).isSome := by
    decide +kernel
  obtain ⟨σ, hσ, hfacts⟩ := (Option.any_eq_true _ _).mp heval
  obtain ⟨hcalls, hphase, hmore⟩ := of_decide_eq_true hfacts
  obtain ⟨σ', hσ'⟩ := Option.isSome_iff_exists.mp hmore
  have hrun : Run threeNodes overtakenCall σ := Transition.Run.of_foldlM (fun _ _ _ h => h) rfl hσ
  have hlive : σ.sender.Live := by cases hs : σ.sender <;> simp_all [Sender.Live, Sender.phase]
  exact ⟨σ, hrun, (sender_settles hrun hcalls hlive (by simp [Action.OfSender]) hσ').1⟩

end Arachne.Consensus.Outbound
