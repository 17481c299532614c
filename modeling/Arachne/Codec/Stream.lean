import Mathlib.Data.List.Basic

/-! # Streams of frames

A stream is a list of values written one behind the other, each by an encoder `f : α → List β`:
`xs.flatMap f`. For a position `k` of the stream, `framesWithin f k xs` are the values whose frames end at
or before `k`, and `framesFrom f k xs` the others: the first of them holds position `k`, or is cut by a cut
there. What a reader makes of the pieces is the client's business. -/

namespace Codec

variable {α β : Type} (f : α → List β)

/-- The values whose frames lie wholly within the first `k` elements of the stream. -/
def framesWithin : Nat → List α → List α
  | _, [] => []
  | k, x :: xs => if (f x).length ≤ k then x :: framesWithin (k - (f x).length) xs else []

/-- The values from the first one whose frame does not. -/
def framesFrom : Nat → List α → List α
  | _, [] => []
  | k, x :: xs => if (f x).length ≤ k then framesFrom (k - (f x).length) xs else x :: xs

theorem framesWithin_append_framesFrom (k : Nat) (xs : List α) :
    framesWithin f k xs ++ framesFrom f k xs = xs := by
  induction xs generalizing k with
  | nil => rfl
  | cons x xs ih =>
      rw [framesWithin, framesFrom]
      split_ifs with hx
      · rw [List.cons_append, ih]
      · rfl

theorem length_framesWithin_le (k : Nat) (xs : List α) :
    ((framesWithin f k xs).flatMap f).length ≤ k := by
  induction xs generalizing k with
  | nil => exact Nat.zero_le _
  | cons x xs ih =>
      rw [framesWithin]
      split_ifs with hx
      · have := ih (k - (f x).length)
        rw [List.flatMap_cons, List.length_append]
        omega
      · exact Nat.zero_le _

/-- The next frame reaches beyond the position. -/
theorem lt_of_framesFrom_eq {k : Nat} {xs : List α} {x : α} {post : List α}
    (h : framesFrom f k xs = x :: post) :
    k < ((framesWithin f k xs).flatMap f).length + (f x).length := by
  induction xs generalizing k with
  | nil => exact absurd h (by simp [framesFrom])
  | cons y xs ih =>
      rw [framesFrom] at h
      rw [framesWithin]
      split_ifs at h ⊢ with hy
      · have := ih h
        rw [List.flatMap_cons, List.length_append]
        omega
      · obtain rfl : y = x := (List.cons.inj h).1
        rw [List.flatMap_nil, List.length_nil]
        omega

/-- A position of the stream lies in a frame. -/
theorem framesFrom_ne_nil {k : Nat} {xs : List α} (hk : k < (xs.flatMap f).length) :
    framesFrom f k xs ≠ [] := by
  intro hnil
  have hsplit := framesWithin_append_framesFrom f k xs
  have hle := length_framesWithin_le f k xs
  rw [hnil, List.append_nil] at hsplit
  rw [hsplit] at hle
  omega

end Codec
