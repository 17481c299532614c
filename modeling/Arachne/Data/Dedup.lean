import Mathlib.Data.List.Basic
import Mathlib.Data.List.Induction
import Mathlib.Logic.Function.Basic

/-! # Exactly-once execution of a log

A replicated log may carry one request several times: a client that saw no answer sends it again. A
machine that consumes such a log keeps a **table** of the sessions it has served, executes a call only if
its session is not in the table, and forgets sessions when an entry of the log tells it to.

`run` is that machine, over any state `κ`, calls `ω`, sessions `σ` and records `ρ`. Its specification
mentions no table: `firstOccurrences` picks the calls of a log that are not repeats of a call since the
session was last forgotten, and `executeAll` executes them in order. `run_faithful` says that the machine
computes the specification, and that each record of its table was made by one of these calls. -/

namespace Dedup

variable {σ ω κ ρ : Type} [DecidableEq σ]

/-- An entry of the log: one the machine has no interest in, a list of sessions to forget, or a call. -/
inductive Entry (σ ω : Type) where
  | skip
  | forget (ss : List σ)
  | call (s : σ) (w : ω)
  deriving DecidableEq

/-! ## The specification -/

namespace Entry

/-- Whether a session called before (or not) counts as called after the entry. -/
def remembers (s : σ) (before : Bool) : Entry σ ω → Bool
  | skip => before
  | forget ss => before && s ∉ ss
  | call t _ => before || s = t

/-- The entry forgets the session. -/
def Forgets (s : σ) : Entry σ ω → Prop
  | forget ss => s ∈ ss
  | _ => False

end Entry

/-- The session was called since it was last forgotten. -/
def live (s : σ) (log : List (Entry σ ω)) : Bool := log.foldl (fun before e => e.remembers s before) false

theorem live_snoc (s : σ) (log : List (Entry σ ω)) (e : Entry σ ω) :
    live s (log ++ [e]) = e.remembers s (live s log) := by
  rw [live, List.foldl_append]
  rfl

/-- The call of an entry, with its number, unless it repeats one of the entries before it. -/
def firstOccurrence (before : List (Entry σ ω)) : Entry σ ω → Option (Nat × ω)
  | .call s w => if live s before then none else some (before.length + 1, w)
  | _ => none

/-- The calls of a log that are not repeats, in log order. Entries are numbered from 1. -/
def firstOccurrences (log : List (Entry σ ω)) : List (Nat × ω) :=
  (List.range log.length).filterMap fun n => log[n]?.bind (firstOccurrence (log.take n))

theorem firstOccurrences_snoc (log : List (Entry σ ω)) (e : Entry σ ω) :
    firstOccurrences (log ++ [e]) = firstOccurrences log ++ (firstOccurrence log e).toList := by
  rw [firstOccurrences, List.length_append, List.length_singleton, List.range_succ, List.filterMap_append]
  congr 1
  · refine List.filterMap_congr fun n hn => ?_
    have hlt : n < log.length := List.mem_range.mp hn
    rw [List.getElem?_append_left hlt, List.take_append_of_le_length (Nat.le_of_lt hlt)]
  · simp only [List.filterMap_cons, List.filterMap_nil, List.getElem?_concat_length, List.take_left,
      Option.bind_some]
    cases firstOccurrence log e with
    | none => rfl
    | some x => rfl

/-- Execute numbered calls in order. -/
def executeAll (exec : Nat → κ → ω → κ × ρ) (k : κ) (calls : List (Nat × ω)) : κ :=
  calls.foldl (fun k (n, w) => (exec n k w).1) k

theorem executeAll_of_repeat (exec : Nat → κ → ω → κ × ρ) (k : κ) {log : List (Entry σ ω)} {e : Entry σ ω}
    (h : firstOccurrence log e = none) :
    executeAll exec k (firstOccurrences (log ++ [e])) = executeAll exec k (firstOccurrences log) := by
  rw [firstOccurrences_snoc, h, Option.toList_none, List.append_nil]

theorem executeAll_of_first (exec : Nat → κ → ω → κ × ρ) (k : κ) {log : List (Entry σ ω)} {e : Entry σ ω}
    {n : Nat} {w : ω} (h : firstOccurrence log e = some (n, w)) :
    executeAll exec k (firstOccurrences (log ++ [e])) = (exec n (executeAll exec k (firstOccurrences log)) w).1 := by
  rw [firstOccurrences_snoc, h, executeAll, List.foldl_append]
  rfl

/-- The record of a session in the table after a log is what the first call since it was last forgotten
returned. -/
def Established (exec : Nat → κ → ω → κ × ρ) (k₀ : κ) (log : List (Entry σ ω)) (s : σ) (r : ρ) : Prop :=
  ∃ log₁ w log₂, log = log₁ ++ .call s w :: log₂ ∧ live s log₁ = false ∧ (∀ e ∈ log₂, ¬ e.Forgets s) ∧
    r = (exec (log₁.length + 1) (executeAll exec k₀ (firstOccurrences log₁)) w).2

/-- An entry that does not forget the session leaves its record alone. -/
theorem Established.snoc {exec : Nat → κ → ω → κ × ρ} {k₀ : κ} {log : List (Entry σ ω)} {s : σ} {r : ρ}
    (h : Established exec k₀ log s r) {e : Entry σ ω} (he : ¬ e.Forgets s) :
    Established exec k₀ (log ++ [e]) s r := by
  obtain ⟨log₁, w, log₂, rfl, hlive, hforgets, hr⟩ := h
  refine ⟨log₁, w, log₂ ++ [e], List.append_assoc .., hlive, ?_, hr⟩
  rw [List.forall_mem_append, List.forall_mem_singleton]
  exact ⟨hforgets, he⟩

/-! ## The machine -/

/-- The number of entries consumed, the data the calls change, and the table. -/
structure State (σ κ ρ : Type) where
  applied : Nat
  data : κ
  table : σ → Option ρ

/-- Consume the next entry. -/
def State.step (exec : Nat → κ → ω → κ × ρ) (st : State σ κ ρ) : Entry σ ω → State σ κ ρ
  | .skip => { st with applied := st.applied + 1 }
  | .forget ss => { st with applied := st.applied + 1, table := fun s => if s ∈ ss then none else st.table s }
  | .call s w =>
    match st.table s with
    | some _ => { st with applied := st.applied + 1 }
    | none =>
      let (k, r) := exec (st.applied + 1) st.data w
      { applied := st.applied + 1, data := k, table := Function.update st.table s (some r) }

/-- Consume a log. -/
def run (exec : Nat → κ → ω → κ × ρ) (k₀ : κ) (log : List (Entry σ ω)) : State σ κ ρ :=
  log.foldl (State.step exec) ⟨0, k₀, fun _ => none⟩

theorem run_snoc (exec : Nat → κ → ω → κ × ρ) (k₀ : κ) (log : List (Entry σ ω)) (e : Entry σ ω) :
    run exec k₀ (log ++ [e]) = (run exec k₀ log).step exec e := by
  rw [run, List.foldl_append]
  rfl

/-- What the state says about the log it comes from. -/
structure Faithful (exec : Nat → κ → ω → κ × ρ) (k₀ : κ) (log : List (Entry σ ω)) (st : State σ κ ρ) : Prop where
  applied : st.applied = log.length
  data : st.data = executeAll exec k₀ (firstOccurrences log)
  live : ∀ s, (st.table s).isSome = live s log
  established : ∀ s r, st.table s = some r → Established exec k₀ log s r

/-- **Consuming one entry** keeps the state faithful to the log. -/
theorem Faithful.step {exec : Nat → κ → ω → κ × ρ} {k₀ : κ} {log : List (Entry σ ω)} {st : State σ κ ρ}
    (h : Faithful exec k₀ log st) (e : Entry σ ω) : Faithful exec k₀ (log ++ [e]) (st.step exec e) := by
  have happlied : st.applied + 1 = (log ++ [e]).length := by rw [h.applied, List.length_append]; rfl
  cases e with
  | skip =>
      exact {
        applied := happlied
        data := h.data.trans (executeAll_of_repeat exec k₀ rfl).symm
        live := fun s => (h.live s).trans (live_snoc s log .skip).symm
        established := fun s r hr => (h.established s r hr).snoc id }
  | forget ss =>
      exact {
        applied := happlied
        data := h.data.trans (executeAll_of_repeat exec k₀ rfl).symm
        live := by
          intro s
          rw [live_snoc, Entry.remembers, ← h.live]
          show Option.isSome (if s ∈ ss then none else st.table s) = _
          by_cases hs : s ∈ ss <;> simp [hs]
        established := by
          intro s r hr
          obtain ⟨hs, hr⟩ := Option.ite_none_left_eq_some.mp hr
          exact (h.established s r hr).snoc hs }
  | call s w =>
      have hfirst : firstOccurrence log (.call s w) =
          if (st.table s).isSome then none else some (st.applied + 1, w) := by
        rw [firstOccurrence, h.live, h.applied]
      cases hs : st.table s with
      | some r₀ =>
          have hstep : st.step exec (.call s w) = { st with applied := st.applied + 1 } := by
            rw [State.step, hs]
          rw [hstep]
          rw [hs, Option.isSome_some, if_pos rfl] at hfirst
          exact {
            applied := happlied
            data := h.data.trans (executeAll_of_repeat exec k₀ hfirst).symm
            live := by
              intro t
              rw [live_snoc, Entry.remembers, ← h.live]
              by_cases ht : t = s
              · subst ht; simp [hs]
              · simp [ht]
            established := fun t r hr => (h.established t r hr).snoc id }
      | none =>
          have hstep : st.step exec (.call s w) =
              { applied := st.applied + 1, data := (exec (st.applied + 1) st.data w).1,
                table := Function.update st.table s (some (exec (st.applied + 1) st.data w).2) } := by
            rw [State.step, hs]
          rw [hstep]
          rw [hs, Option.isSome_none, if_neg Bool.false_ne_true] at hfirst
          exact {
            applied := happlied
            data := by rw [executeAll_of_first exec k₀ hfirst, h.data]
            live := by
              intro t
              rw [live_snoc, Entry.remembers, ← h.live]
              by_cases ht : t = s
              · subst ht; simp
              · simp [ht]
            established := by
              intro t r hr
              by_cases ht : t = s
              · subst ht
                obtain rfl := Option.some.inj ((Function.update_self t _ st.table).symm.trans hr)
                refine ⟨log, w, [], rfl, ?_, by simp, by rw [h.applied, h.data]⟩
                rw [← h.live, hs]
                rfl
              · have hr' : st.table t = some r := (Function.update_of_ne ht _ st.table).symm.trans hr
                exact (h.established t r hr').snoc id }

/-- **The machine computes the specification**, on every log. -/
theorem run_faithful (exec : Nat → κ → ω → κ × ρ) (k₀ : κ) (log : List (Entry σ ω)) :
    Faithful exec k₀ log (run exec k₀ log) := by
  induction log using List.reverseRecOn with
  | nil => exact ⟨rfl, rfl, fun _ => rfl, fun _ _ h => (nomatch h)⟩
  | append_singleton log e ih =>
      rw [run_snoc]
      exact ih.step e

end Dedup
