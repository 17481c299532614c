import Mathlib.Data.List.Induction

/-! # Labelled runs

A system is a set of initial states and a relation `step s o s'`: operation `o` may take state `s` to
`s'`. A `Run` is a finite sequence of such steps from an initial state, indexed by the operations it
performed. `Run.invariant` is the only induction on runs this development needs; a property of every
reachable state is proved by it from what one step does.

An operation may itself be a list of smaller ones that can be interrupted between any two of them. `Throughout`
speaks about all the states this can leave. -/

namespace Transition

universe u v

variable {S : Type u} {O : Type v}

/-- `Run init step ops s`: performing `ops` in order from an initial state can end in `s`. -/
inductive Run (init : S → Prop) (step : S → O → S → Prop) : List O → S → Prop where
  | start {s : S} : init s → Run init step [] s
  | snoc {ops : List O} {s s' : S} {o : O} :
      Run init step ops s → step s o s' → Run init step (ops ++ [o]) s'

variable {init : S → Prop} {step step' : S → O → S → Prop}

/-- **Invariant rule.** What holds initially and is kept by each step holds after every run. The
property may speak about the operations performed so far. -/
theorem Run.invariant {P : List O → S → Prop} (h0 : ∀ s, init s → P [] s)
    (hstep : ∀ ops s o s', Run init step ops s → P ops s → step s o s' → P (ops ++ [o]) s')
    {ops : List O} {s : S} (h : Run init step ops s) : P ops s := by
  induction h with
  | start hi => exact h0 _ hi
  | snoc hr hs ih => exact hstep _ _ _ _ hr ih hs

/-- A run of a more restricted system is a run. -/
theorem Run.mono (hle : ∀ s o s', step s o s' → step' s o s') {ops : List O} {s : S}
    (h : Run init step ops s) : Run init step' ops s := by
  induction h with
  | start hi => exact .start hi
  | snoc _ hs ih => exact .snoc ih (hle _ _ _ hs)

/-- What an executable step function computes is a run. -/
theorem Run.of_foldlM {f : S → O → Option S} (hf : ∀ s o s', f s o = some s' → step s o s') {ops : List O} {s s' : S}
    (h0 : init s) (h : ops.foldlM f s = some s') : Run init step ops s' := by
  induction ops using List.reverseRecOn generalizing s' with
  | nil =>
      obtain rfl := Option.some.inj h
      exact .start h0
  | append_singleton ops o ih =>
      rw [List.foldlM_append] at h
      obtain ⟨t, ht, hlast⟩ := Option.bind_eq_some_iff.mp h
      rw [List.foldlM_cons] at hlast
      obtain ⟨u, hu, heq⟩ := Option.bind_eq_some_iff.mp hlast
      obtain rfl := Option.some.inj heq
      exact .snoc (ih ht) (hf _ _ _ hu)

/-! ## Interrupted runs -/

/-- `P` holds at every point of performing `ops` from `s`, wherever one stops. -/
def Throughout (run : S → O → S) (P : S → Prop) (s : S) (ops : List O) : Prop :=
  ∀ k, P ((ops.take k).foldl run s)

namespace Throughout

variable {run : S → O → S} {P : S → Prop} {s : S} {o : O} {ops : List O}

theorem nil (h : P s) : Throughout run P s [] := by
  intro k
  rwa [List.take_nil]

theorem cons (h : P s) (hrest : Throughout run P (run s o) ops) : Throughout run P s (o :: ops) := by
  intro k
  cases k with
  | zero => exact h
  | succ k => exact hrest k

/-- Where nothing is left to perform. -/
theorem last (h : Throughout run P s ops) : P (ops.foldl run s) := by
  have hall := h ops.length
  rwa [List.take_length] at hall

theorem append {more : List O} (h : Throughout run P s ops) (hmore : Throughout run P (ops.foldl run s) more) :
    Throughout run P s (ops ++ more) := by
  induction ops generalizing s with
  | nil => exact hmore
  | cons o ops ih => exact cons (h 0) (ih (fun k => h (k + 1)) hmore)

theorem mono {Q : S → Prop} (hPQ : ∀ s, P s → Q s) (h : Throughout run P s ops) : Throughout run Q s ops :=
  fun k => hPQ _ (h k)

/-- What every operation keeps. -/
theorem of_kept (h : P s) (hkept : ∀ o ∈ ops, ∀ s, P s → P (run s o)) : Throughout run P s ops := by
  induction ops generalizing s with
  | nil => exact nil h
  | cons o ops ih =>
      rw [List.forall_mem_cons] at hkept
      exact cons h (ih (hkept.1 s h) hkept.2)

end Throughout

/-! ## Fallible steps -/

/-- A sequence of fallible computations succeeds exactly when each one does in turn. -/
theorem bind_eq_ok {ε : Type u} {α β : Type v} {x : Except ε α} {f : α → Except ε β} {b : β} :
    (x >>= f) = .ok b ↔ ∃ a, x = .ok a ∧ f a = .ok b := by
  cases x with
  | error e => exact ⟨fun h => (nomatch h), fun ⟨_, h, _⟩ => (nomatch h)⟩
  | ok a => exact ⟨fun h => ⟨a, rfl, h⟩, fun ⟨_, h, hf⟩ => Except.ok.inj h ▸ hf⟩

/-- **Induction on a loop** that succeeds with `s'`, from its end. -/
theorem foldlM_induction {ε : Type u} {f : S → O → Except ε S} {s' : S}
    {motive : ∀ (s : S) (ops : List O), ops.foldlM f s = .ok s' → Prop} (nil : motive s' [] rfl)
    (cons : ∀ {s t : S} {o : O} {ops : List O} (h : f s o = .ok t) (hrest : ops.foldlM f t = .ok s'),
      motive t ops hrest → motive s (o :: ops) (bind_eq_ok.mpr ⟨t, h, hrest⟩))
    {s : S} {ops : List O} (h : ops.foldlM f s = .ok s') : motive s ops h := by
  induction ops generalizing s with
  | nil =>
      obtain rfl := Except.ok.inj h
      exact nil
  | cons o ops ih =>
      obtain ⟨t, ht, hrest⟩ := bind_eq_ok.mp h
      exact cons ht hrest (ih hrest)

theorem map_eq_ok {ε : Type u} {α β : Type v} {x : Except ε α} {f : α → β} {b : β} :
    x.map f = .ok b ↔ ∃ a, x = .ok a ∧ f a = b := by
  cases x with
  | error e => exact ⟨fun h => (nomatch h), fun ⟨_, h, _⟩ => (nomatch h)⟩
  | ok a => exact ⟨fun h => ⟨a, rfl, Except.ok.inj h⟩, fun ⟨_, h, hf⟩ => Except.ok.inj h ▸ congrArg _ hf⟩

end Transition
