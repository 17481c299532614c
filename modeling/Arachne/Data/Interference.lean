import Mathlib.Logic.Relation

/-! # Operations under interference

A thread performs a list of operations on a state that others change between them. What others do is a relation
`env`; what the thread relies on has to be *stable*: whatever `env` does, it stays true.

`Safely env run P Q s ops` says that from state `s` the remaining operations `ops` go well: whenever the thread gets to
its next operation `o`, in whatever state `env` has left, `P` holds of the two, and `Q` holds once all are done. It is
itself stable (`Safely.interfered`), so it can be kept as an invariant while the thread is under way; `Safely.cons` and
`Safely.append` build it up from one operation at a time. -/

namespace Interference

universe u v

variable {S : Type u} {O : Type v}

/-- The operations go well from `s`, however `env` interferes. -/
def Safely (env : S → S → Prop) (run : S → O → S) (P : S → O → Prop) (Q : S → Prop) : S → List O → Prop
  | s, [] => ∀ t, Relation.ReflTransGen env s t → Q t
  | s, o :: ops => ∀ t, Relation.ReflTransGen env s t → P t o ∧ Safely env run P Q (run t o) ops

/-- What `env` cannot make false. -/
def Stable (env : S → S → Prop) (I : S → Prop) : Prop := ∀ s t, env s t → I s → I t

variable {env : S → S → Prop} {run : S → O → S} {P : S → O → Prop} {Q Q' I : S → Prop} {s t : S}

theorem Stable.many (h : Stable env I) (hst : Relation.ReflTransGen env s t) (hs : I s) : I t := by
  induction hst with
  | refl => exact hs
  | tail _ hstep ih => exact h _ _ hstep ih

theorem Stable.and {J : S → Prop} (hI : Stable env I) (hJ : Stable env J) : Stable env fun s => I s ∧ J s :=
  fun s t hst h => ⟨hI s t hst h.1, hJ s t hst h.2⟩

namespace Safely

theorem nil (hQ : Stable env Q) (h : Q s) : Safely env run P Q s [] := fun _ ht => hQ.many ht h

/-- **One operation**: a stable fact about the state before it gives what it needs, and the rest goes well after it. -/
theorem cons {o : O} {ops : List O} (hI : Stable env I) (hs : I s)
    (h : ∀ t, I t → P t o ∧ Safely env run P Q (run t o) ops) : Safely env run P Q s (o :: ops) :=
  fun t ht => h t (hI.many ht hs)

/-- What goes well still does after interference. -/
theorem interfered {ops : List O} (h : Safely env run P Q s ops) (hst : env s t) : Safely env run P Q t ops := by
  cases ops with
  | nil => exact fun u hu => h u (.head hst hu)
  | cons o ops => exact fun u hu => h u (.head hst hu)

theorem post (h : Safely env run P Q s []) : Q s := h s .refl

theorem pre {o : O} {ops : List O} (h : Safely env run P Q s (o :: ops)) : P s o := (h s .refl).1

theorem next {o : O} {ops : List O} (h : Safely env run P Q s (o :: ops)) :
    Safely env run P Q (run s o) ops := (h s .refl).2

/-- **Sequencing.** -/
theorem append {xs ys : List O} (h : Safely env run P Q s xs) (h' : ∀ t, Q t → Safely env run P Q' t ys) :
    Safely env run P Q' s (xs ++ ys) := by
  induction xs generalizing s with
  | nil => exact h' s h.post
  | cons o xs ih => exact fun t ht => ⟨(h t ht).1, ih (h t ht).2⟩

/-- Weakening the outcome. -/
theorem weaken {xs : List O} (h : Safely env run P Q s xs) (hle : ∀ t, Q t → Q' t) :
    Safely env run P Q' s xs := by
  induction xs generalizing s with
  | nil => exact fun t ht => hle t (h t ht)
  | cons o xs ih => exact fun t ht => ⟨(h t ht).1, ih (h t ht).2⟩

end Safely

end Interference
