import Mathlib.Data.List.Basic

/-! # Traces

A trace is what happened, in order. Properties of the form "whenever this happens, that has happened before" say
what each event needs of the events before it: `Justified R trace` is the statement that every event of the trace
has what `R` asks for. It is established event by event as the trace grows. -/

namespace Trace

variable {E : Type} {R R' : List E → E → Prop} {trace : List E}

/-- Every event stands in `R` to what came before it. -/
def Justified (R : List E → E → Prop) (trace : List E) : Prop := ∀ pre e post, trace = pre ++ e :: post → R pre e

theorem justified_nil : Justified R [] := by
  intro pre e post h
  cases pre <;> cases h

theorem justified_snoc {e : E} (h : Justified R trace) (he : R trace e) : Justified R (trace ++ [e]) := by
  intro pre e' post heq
  rcases List.eq_nil_or_concat post with rfl | ⟨post, last, rfl⟩
  · obtain ⟨rfl, hlast⟩ := List.append_inj' heq rfl
    cases hlast
    exact he
  · rw [List.concat_eq_append, ← List.cons_append, ← List.append_assoc] at heq
    exact h pre e' post (List.append_inj' heq rfl).1

theorem Justified.imp (h : Justified R trace) (himp : ∀ pre e, R pre e → R' pre e) : Justified R' trace :=
  fun pre e post heq => himp pre e (h pre e post heq)

/-- An event that is told by its label happens once, if no label occurs twice. -/
theorem eq_of_nodup_filterMap {L : Type} {label : E → Option L} (h : (trace.filterMap label).Nodup) {a b : E} {l : L}
    (ha : a ∈ trace) (hb : b ∈ trace) (hla : label a = some l) (hlb : label b = some l) : a = b := by
  induction trace with
  | nil => cases ha
  | cons e trace ih =>
      have hmem : ∀ {x : E}, x ∈ trace → label x = some l → l ∈ trace.filterMap label :=
        fun hx hlx => List.mem_filterMap.mpr ⟨_, hx, hlx⟩
      cases hle : label e with
      | none =>
          rw [List.filterMap_cons_none hle] at h
          have hne : ∀ {x : E}, x ∈ e :: trace → label x = some l → x ∈ trace := by
            intro x hx hlx
            rcases List.mem_cons.mp hx with rfl | hx
            · cases hle.symm.trans hlx
            · exact hx
          exact ih h (hne ha hla) (hne hb hlb)
      | some l' =>
          rw [List.filterMap_cons_some hle, List.nodup_cons] at h
          rcases List.mem_cons.mp ha with rfl | ha'
          · rcases List.mem_cons.mp hb with rfl | hb'
            · rfl
            · cases hle.symm.trans hla
              exact absurd (hmem hb' hlb) h.1
          · rcases List.mem_cons.mp hb with rfl | hb'
            · cases hle.symm.trans hlb
              exact absurd (hmem ha' hla) h.1
            · exact ih h.2 ha' hb'

end Trace
