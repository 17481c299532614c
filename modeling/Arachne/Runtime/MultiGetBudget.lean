import Arachne.Data.Run
import Mathlib.Algebra.BigOperators.Group.List.Basic
import Mathlib.Tactic.Ring

/-! # The byte budget of `multi_get`

Handles, the forwarding sink and the actor reserve the bytes of a `multi_get` in one shared counter before they hand it
on. `try_reserve` is a compare-and-swap loop, and a reservation is given back when its guard is dropped, so the counter
is changed by any number of tasks at once.

`BudgetSys.exec` has one step for every access to the counter: the first load of a call, each of its attempts to swap
(which may fail for no reason, `compare_exchange_weak`), and the `fetch_sub` of a drop. What a call does between two
accesses touches nothing shared and belongs to the access before. So the step of a load or of a failed swap is the one
that decides whether the call gives up.

The counter is the sum of the live guards after every run (`budget_conserved`): what a call is about to store is what it
saw plus what it asked for, without saturation, and a swap only succeeds on what the call saw. -/

namespace Arachne.Runtime

/-- `MAX_INFLIGHT_MULTI_GET_BYTES`. -/
def maxInflightMultiGetBytes : UInt64 := 16 * 1024 * 1024

/-- `u64::saturating_add`. -/
def saturatingAdd (a b : UInt64) : UInt64 :=
  if a.toNat + b.toNat < 2 ^ 64 then a + b else 18446744073709551615

/-- The head of the loop of `try_reserve`: what is to be stored, if that is not too much. -/
def reserveNext (current bytes : UInt64) : Option UInt64 :=
  let next := saturatingAdd current bytes
  if next > maxInflightMultiGetBytes then none else some next

/-- A call of `try_reserve` that is about to swap. -/
structure ReserveCall where
  bytes : UInt64
  current : UInt64
  next : UInt64
  deriving DecidableEq, Repr

/-- A call that returned `None`, and the counter as it was at the step that decided so. -/
structure Refusal where
  bytes : UInt64
  used : UInt64
  deriving DecidableEq, Repr

/-- The counter, the calls under way and the bytes of the live guards. `refused` is history. -/
structure BudgetSys where
  used : UInt64 := 0
  calls : List ReserveCall := []
  guards : List UInt64 := []
  refused : List Refusal := []
  deriving DecidableEq, Repr

inductive BudgetAction where
  /-- A call begins with its load. -/
  | load (bytes : UInt64)
  /-- A call tries to swap; a weak exchange may fail although the counter is what the call expects. -/
  | exchange (call : Nat) (spurious : Bool)
  | drop (guard : Nat)
  deriving DecidableEq, Repr

namespace BudgetSys

def exec (σ : BudgetSys) : BudgetAction → Option BudgetSys
  | .load bytes =>
    match reserveNext σ.used bytes with
    | none => some { σ with refused := σ.refused ++ [⟨bytes, σ.used⟩] }
    | some next => some { σ with calls := σ.calls ++ [⟨bytes, σ.used, next⟩] }
  | .exchange i spurious => do
    let call ← σ.calls[i]?
    if σ.used = call.current ∧ spurious = false then
      some { σ with used := call.next, guards := σ.guards ++ [call.bytes], calls := σ.calls.eraseIdx i }
    else
      -- once more, with the value that was observed
      match reserveNext σ.used call.bytes with
      | none => some { σ with calls := σ.calls.eraseIdx i, refused := σ.refused ++ [⟨call.bytes, σ.used⟩] }
      | some next => some { σ with calls := σ.calls.set i ⟨call.bytes, σ.used, next⟩ }
  | .drop i => do
    let bytes ← σ.guards[i]?
    some { σ with used := σ.used - bytes, guards := σ.guards.eraseIdx i }

/-- The bytes of the live guards. -/
def live (σ : BudgetSys) : Nat := (σ.guards.map UInt64.toNat).sum

end BudgetSys

/-- Any interleaving of calls and drops, from a fresh budget. -/
abbrev BudgetRun : List BudgetAction → BudgetSys → Prop :=
  Transition.Run (· = {}) fun σ a σ' => σ.exec a = some σ'

/-! ## The head of the loop -/

theorem toNat_saturatingAdd (a b : UInt64) : (saturatingAdd a b).toNat = min (a.toNat + b.toNat) (2 ^ 64 - 1) := by
  rw [saturatingAdd]
  split
  · next h =>
      rw [UInt64.toNat_add, Nat.mod_eq_of_lt h]
      omega
  · next h =>
      rw [Nat.min_eq_right (by omega)]
      rfl

/-- Only a sum below the cap is stored, and it is the true sum. -/
theorem reserveNext_eq_some {current bytes next : UInt64} (h : reserveNext current bytes = some next) :
    next.toNat = current.toNat + bytes.toNat ∧ next.toNat ≤ maxInflightMultiGetBytes.toNat := by
  obtain ⟨hle, heq⟩ := Option.ite_none_left_eq_some.mp h
  obtain rfl := Option.some.inj heq
  have hsum := toNat_saturatingAdd current bytes
  have hle := UInt64.le_iff_toNat_le.mp (UInt64.not_lt.mp hle)
  have hcap : maxInflightMultiGetBytes.toNat < 2 ^ 64 - 1 := by decide
  omega

/-- A refused request does not fit, though its sum may have been cut. -/
theorem reserveNext_eq_none {current bytes : UInt64} (h : reserveNext current bytes = none) :
    maxInflightMultiGetBytes.toNat < current.toNat + bytes.toNat := by
  rw [reserveNext, ite_eq_left_iff] at h
  have hlt : maxInflightMultiGetBytes < saturatingAdd current bytes :=
    Decidable.byContradiction fun hle => Option.some_ne_none _ (h hle)
  have hlt := UInt64.lt_iff_toNat_lt.mp hlt
  rw [toNat_saturatingAdd] at hlt
  exact Nat.lt_of_lt_of_le hlt (Nat.min_le_left _ _)

/-! ## Conservation -/

namespace BudgetSys

/-- The counter is what the live guards hold, every call would store the true sum of what it saw and what it asks for,
and every refusal was due. -/
structure Inv (σ : BudgetSys) : Prop where
  used_eq : σ.used.toNat = σ.live
  used_le : σ.used.toNat ≤ maxInflightMultiGetBytes.toNat
  exact : ∀ call ∈ σ.calls,
    call.next.toNat = call.current.toNat + call.bytes.toNat ∧ call.next.toNat ≤ maxInflightMultiGetBytes.toNat
  due : ∀ r ∈ σ.refused, maxInflightMultiGetBytes.toNat < r.used.toNat + r.bytes.toNat

variable {σ σ' : BudgetSys}

/-- Calls and refusals change, the counter and the guards do not. -/
theorem Inv.of_calls {calls : List ReserveCall} {refused : List Refusal} (h : σ.Inv)
    (hcalls : ∀ call ∈ calls, call ∈ σ.calls ∨ reserveNext call.current call.bytes = some call.next)
    (hrefused : ∀ r ∈ refused, r ∈ σ.refused ∨ reserveNext r.used r.bytes = none) :
    Inv { σ with calls, refused } where
  used_eq := h.used_eq
  used_le := h.used_le
  exact call hcall := (hcalls call hcall).elim (h.exact call) reserveNext_eq_some
  due r hr := (hrefused r hr).elim (h.due r) reserveNext_eq_none

/-- Giving up, with what was seen. -/
theorem mem_refused_or {bytes : UInt64} (hnone : reserveNext σ.used bytes = none) (r : Refusal)
    (hr : r ∈ σ.refused ++ [⟨bytes, σ.used⟩]) : r ∈ σ.refused ∨ reserveNext r.used r.bytes = none := by
  refine (List.mem_append.mp hr).imp_right fun hnew => ?_
  obtain rfl := List.mem_singleton.mp hnew
  exact hnone

theorem Inv.load {bytes : UInt64} (h : σ.Inv) (hexec : σ.exec (.load bytes) = some σ') : σ'.Inv := by
  simp only [exec] at hexec
  split at hexec
  · next hnone =>
      obtain rfl := Option.some.inj hexec
      exact h.of_calls (fun call hcall => .inl hcall) (mem_refused_or hnone)
  · next next hnext =>
      obtain rfl := Option.some.inj hexec
      refine h.of_calls (fun call hcall => ?_) fun r hr => .inl hr
      refine (List.mem_append.mp hcall).imp_right fun hnew => ?_
      obtain rfl := List.mem_singleton.mp hnew
      exact hnext

/-- A swap that succeeds found what the call saw, so the counter grows by the bytes of the new guard. -/
theorem Inv.swap {i : Nat} {call : ReserveCall} (h : σ.Inv) (hcall : σ.calls[i]? = some call)
    (hused : σ.used = call.current) :
    Inv { σ with used := call.next, guards := σ.guards ++ [call.bytes], calls := σ.calls.eraseIdx i } where
  used_eq := by
    obtain ⟨hnext, -⟩ := h.exact call (List.mem_of_getElem? hcall)
    have hlive := h.used_eq
    simp only [live] at hlive ⊢
    rw [List.map_append, List.sum_append, ← hlive, hnext, ← hused, List.map_singleton, List.sum_singleton]
  used_le := (h.exact call (List.mem_of_getElem? hcall)).2
  exact other hother := h.exact other (List.mem_of_mem_eraseIdx hother)
  due := h.due

theorem Inv.exchange {i : Nat} {spurious : Bool} (h : σ.Inv) (hexec : σ.exec (.exchange i spurious) = some σ') :
    σ'.Inv := by
  simp only [exec] at hexec
  obtain ⟨call, hcall, hexec⟩ := Option.bind_eq_some_iff.mp hexec
  split at hexec
  · next hswap =>
      obtain rfl := Option.some.inj hexec
      exact h.swap hcall hswap.1
  split at hexec
  · next hnone =>
      obtain rfl := Option.some.inj hexec
      exact h.of_calls (fun other hother => .inl (List.mem_of_mem_eraseIdx hother)) (mem_refused_or hnone)
  · next next hnext =>
      obtain rfl := Option.some.inj hexec
      refine h.of_calls (fun other hother => ?_) fun r hr => .inl hr
      refine (List.mem_or_eq_of_mem_set hother).imp_right fun hnew => ?_
      rw [hnew]
      exact hnext

/-- The bytes of one guard, and those of the others. -/
theorem live_eraseIdx {i : Nat} {bytes : UInt64} (h : σ.guards[i]? = some bytes) :
    σ.live = bytes.toNat + ((σ.guards.eraseIdx i).map UInt64.toNat).sum := by
  obtain ⟨hi, rfl⟩ := List.getElem?_eq_some_iff.mp h
  have hperm := (List.getElem_cons_eraseIdx_perm hi).map UInt64.toNat
  rw [live, ← hperm.sum_eq, List.map_cons, List.sum_cons]

/-- A dropped guard takes its own bytes out, which the counter has. -/
theorem Inv.drop {i : Nat} (h : σ.Inv) (hexec : σ.exec (.drop i) = some σ') : σ'.Inv := by
  simp only [exec] at hexec
  obtain ⟨bytes, hguard, hexec⟩ := Option.bind_eq_some_iff.mp hexec
  obtain rfl := Option.some.inj hexec
  have hlive := h.used_eq.trans (live_eraseIdx hguard)
  have hsub : (σ.used - bytes).toNat = σ.used.toNat - bytes.toNat :=
    UInt64.toNat_sub_of_le _ _ (UInt64.le_iff_toNat_le.mpr (by omega))
  exact {
    used_eq := by
      show (σ.used - bytes).toNat = ((σ.guards.eraseIdx i).map UInt64.toNat).sum
      omega
    used_le := by
      have hle := h.used_le
      rw [hsub]
      omega
    exact := h.exact
    due := h.due }

theorem Inv.step {a : BudgetAction} (h : σ.Inv) (hexec : σ.exec a = some σ') : σ'.Inv := by
  cases a with
  | load bytes => exact h.load hexec
  | exchange i spurious => exact h.exchange hexec
  | drop i => exact h.drop hexec

end BudgetSys

theorem BudgetRun.inv {actions : List BudgetAction} {σ : BudgetSys} (h : BudgetRun actions σ) : σ.Inv := by
  refine Transition.Run.invariant (P := fun _ σ => σ.Inv) ?_ ?_ h
  · rintro _ rfl
    exact ⟨rfl, by decide, by decide, by decide⟩
  · intro _ σ a σ' _ hinv hexec
    exact hinv.step hexec

/-- **The budget is conserved** in every interleaving. The counter is the sum of the bytes of the live guards and never
above the cap; a call gives up only if the counter and its request together exceed the cap at the step that decides; a
call that goes on would store the sum of what it saw and what it asks for; and a drop takes no more than there is. -/
theorem budget_conserved {actions : List BudgetAction} {σ : BudgetSys} (h : BudgetRun actions σ) :
    σ.used.toNat = σ.live ∧ σ.used ≤ maxInflightMultiGetBytes ∧
    (∀ r ∈ σ.refused, maxInflightMultiGetBytes.toNat < r.used.toNat + r.bytes.toNat) ∧
    (∀ call ∈ σ.calls, call.next.toNat = call.current.toNat + call.bytes.toNat) ∧
    ∀ bytes ∈ σ.guards, bytes ≤ σ.used := by
  have hinv := h.inv
  refine ⟨hinv.used_eq, UInt64.le_iff_toNat_le.mpr hinv.used_le, hinv.due, fun call hcall => (hinv.exact call hcall).1,
    fun bytes hbytes => ?_⟩
  obtain ⟨i, hi⟩ := List.mem_iff_getElem?.mp hbytes
  rw [UInt64.le_iff_toNat_le, hinv.used_eq, BudgetSys.live_eraseIdx hi]
  exact Nat.le_add_right _ _

/-- Two calls load the same counter and the second loses the race. A request of the largest size is refused, a guard is
dropped, and a swap fails for no reason. -/
def racingReservations : List BudgetAction :=
  [.load 100, .load 200, .exchange 0 false, .exchange 0 false, .load 18446744073709551615, .exchange 0 false, .drop 0,
    .load 16777100, .load 1, .exchange 0 true]

theorem budget_conserved_racing : ∃ σ, BudgetRun racingReservations σ ∧ σ.guards = [200] ∧
    σ.refused = [⟨18446744073709551615, 100⟩, ⟨16777100, 200⟩] ∧ σ.calls = [⟨1, 200, 201⟩] ∧ σ.used.toNat = σ.live := by
  have heval : (racingReservations.foldlM BudgetSys.exec {}).any fun σ => σ.guards = [200] ∧
      σ.refused = [⟨18446744073709551615, 100⟩, ⟨16777100, 200⟩] ∧ σ.calls = [⟨1, 200, 201⟩] := by
    decide +kernel
  obtain ⟨σ, hσ, hfacts⟩ := (Option.any_eq_true _ _).mp heval
  obtain ⟨hguards, hrefused, hcalls⟩ := of_decide_eq_true hfacts
  have hrun : BudgetRun racingReservations σ := Transition.Run.of_foldlM (fun _ _ _ h => h) rfl hσ
  exact ⟨σ, hrun, hguards, hrefused, hcalls, (budget_conserved hrun).1⟩

end Arachne.Runtime
