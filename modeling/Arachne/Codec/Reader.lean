import Arachne.Codec.LittleEndian

/-! # Readers of byte strings

A `Reader α` consumes a prefix of a byte string and returns a value and the rest, or fails. It is a
monad, so a parser is a `do` block over the primitive readers below (`byte`, `take`, `u32`, `u64`) and
the counted loop `iterate`.

Three judgements carry the proofs about such a parser, each with one rule per primitive and per
combinator:

* `Reads r bs x`: on any input that starts with `bs`, the reader consumes exactly `bs` and returns `x`.
  This is the form a round trip takes, because it composes along `>>=` as the encoder composes along
  `++`.
* `Yields r P`: whatever the input, a value the reader returns satisfies `P`.
* `Consumes r P`: whatever the input, the value returned and the bytes consumed for it satisfy `P`. With
  `P x used` saying that `used` encodes `x`, the reader accepts nothing but encodings. -/

namespace Codec

/-! ## Writing -/

/-- The four bytes of a length. A length that does not fit is truncated, as a cast to `u32` is. -/
def u32Bytes (n : Nat) : Bytes := leBytes 4 n

def u64Bytes (x : UInt64) : Bytes := leBytes 8 x.toNat

/-- A byte string behind its own length. -/
def sized (bs : Bytes) : Bytes := u32Bytes bs.length ++ bs

/-! ## Reading -/

abbrev Reader := StateT Bytes Option

namespace Reader

variable {α β γ : Type}

def byte : Reader UInt8
  | [] => none
  | b :: bs => some (b, bs)

/-- The next `n` bytes. -/
def take (n : Nat) : Reader Bytes := fun bs =>
  if n ≤ bs.length then some (bs.take n, bs.drop n) else none

/-- A `u32`, as the length or count it is used for. -/
def u32 : Reader Nat := leNat <$> take 4

def u64 : Reader UInt64 := (fun bs => UInt64.ofNat (leNat bs)) <$> take 8

/-- A byte string behind its own length. -/
def sizedBytes : Reader Bytes := u32 >>= take

/-- Succeeds at the end of the input only. -/
def eof : Reader Unit
  | [] => some ((), [])
  | _ :: _ => none

/-- `for _ in 0..n`, with the variables the body changes as an accumulator. -/
def iterate (body : β → Reader β) : Nat → β → Reader β
  | 0, acc => pure acc
  | n + 1, acc => body acc >>= iterate body n

/-- `n` values in a row. -/
def many (r : Reader α) (n : Nat) : Reader (List α) :=
  iterate (fun xs => (fun x => xs ++ [x]) <$> r) n []

/-- Run a reader on a whole input. What is left over is ignored: a format that forbids trailing bytes
ends in `eof`. -/
def parse {ε : Type} (malformed : ε) (r : Reader α) (bs : Bytes) : Except ε α :=
  match r bs with
  | none => .error malformed
  | some (x, _) => .ok x

theorem bind_apply (r : Reader α) (f : α → Reader β) (bs : Bytes) :
    (r >>= f) bs = (r bs).bind fun (x, rest) => f x rest := rfl

theorem map_apply (f : α → β) (r : Reader α) (bs : Bytes) :
    (f <$> r) bs = (r bs).map fun (x, rest) => (f x, rest) := by
  show ((r bs).bind fun (x, rest) => some (f x, rest)) = _
  cases r bs with
  | none => rfl
  | some x => rfl

theorem parse_eq_ok {ε : Type} {malformed : ε} {r : Reader α} {bs : Bytes} {x : α} :
    r.parse malformed bs = .ok x ↔ ∃ rest, r bs = some (x, rest) := by
  rw [parse]
  split
  · next h => simp [h]
  · next y rest h => simp [h]

/-- A parser fails in one way only. -/
theorem eq_of_parse_error {ε : Type} {malformed e : ε} {r : Reader α} {bs : Bytes} (h : r.parse malformed bs = .error e) :
    e = malformed := by
  rw [parse] at h
  split at h
  · exact (Except.error.inj h).symm
  · cases h

/-- A parser that insists on the end of the input returns what its reader returned. -/
theorem eq_some_of_parse_eof {ε : Type} {malformed : ε} {r : Reader α} {bs : Bytes} {x : α}
    (h : (do let x ← r; eof; return x : Reader α).parse malformed bs = .ok x) : ∃ rest, r bs = some (x, rest) := by
  obtain ⟨rest, hrun⟩ := parse_eq_ok.mp h
  obtain ⟨⟨y, mid⟩, hr, hy⟩ := Option.bind_eq_some_iff.mp hrun
  obtain ⟨⟨_, last⟩, hend, hpure⟩ := Option.bind_eq_some_iff.mp hy
  cases hpure
  exact ⟨mid, hr⟩

/-- What comes behind a check for the end of the input sees no more of it. -/
theorem eof_bind_eq_some {k : Unit → Reader α} {bs rest : Bytes} {x : α} (h : (eof >>= k) bs = some (x, rest)) :
    bs = [] ∧ k () [] = some (x, rest) := by
  cases bs with
  | nil => exact ⟨rfl, h⟩
  | cons b bs => cases h

/-! ## Round trips -/

/-- `bs` is an encoding of `x` for the reader `r`, whatever follows it. -/
def Reads (r : Reader α) (bs : Bytes) (x : α) : Prop := ∀ rest, r (bs ++ rest) = some (x, rest)

namespace Reads

theorem pure (x : α) : Reads (Pure.pure x) [] x := fun _ => rfl

/-- What is left after an encoding is read by what comes next. -/
theorem run_bind {r : Reader α} {bs : Bytes} {x : α} (h : Reads r bs x) (f : α → Reader β) (rest : Bytes) :
    (r >>= f) (bs ++ rest) = f x rest := by
  rw [bind_apply, h]
  rfl

theorem bind {r : Reader α} {f : α → Reader β} {bs cs : Bytes} {x : α} {y : β} (h : Reads r bs x)
    (hf : Reads (f x) cs y) : Reads (r >>= f) (bs ++ cs) y := by
  intro rest
  rw [List.append_assoc, h.run_bind]
  exact hf rest

theorem map {r : Reader α} {bs : Bytes} {x : α} (h : Reads r bs x) (f : α → β) :
    Reads (f <$> r) bs (f x) := by
  intro rest
  rw [map_apply, h]
  rfl

/-- The last field of a record. -/
theorem bind_pure {r : Reader α} {bs : Bytes} {x : α} (h : Reads r bs x) (f : α → β) :
    Reads (r >>= fun x => Pure.pure (f x)) bs (f x) := by
  rw [← List.append_nil bs]
  exact h.bind (pure (f x))

/-- A check that passes consumes nothing. -/
theorem check {p : Prop} [Decidable p] (hp : p) {r : Reader α} {bs : Bytes} {x : α} (h : Reads r bs x) :
    Reads (do guard p; r) bs x := by
  intro rest
  rw [bind_apply, show (guard p : Reader Unit) = Pure.pure () from if_pos hp]
  exact h rest

/-- A one-byte field, as the tag in front of a variant. -/
theorem byte (b : UInt8) : Reads Reader.byte [b] b := fun _ => rfl

/-- A tag in front of what it announces. -/
theorem bind_byte {b : UInt8} {f : UInt8 → Reader α} {bs : Bytes} {x : α} (h : Reads (f b) bs x) :
    Reads (Reader.byte >>= f) (b :: bs) x :=
  (byte b).bind h

theorem take {bs : Bytes} {n : Nat} (h : bs.length = n) : Reads (Reader.take n) bs bs := by
  intro rest
  subst h
  rw [Reader.take, if_pos (by simp), List.take_left, List.drop_left]

/-- A count too large for its field is read back truncated. -/
theorem u32_mod (n : Nat) : Reads Reader.u32 (u32Bytes n) (n % 2 ^ 32) := by
  have hread : Reads Reader.u32 (u32Bytes n) (leNat (u32Bytes n)) := (take (length_leBytes 4 n)).map leNat
  rwa [u32Bytes, leNat_leBytes_mod] at hread

theorem u32 {n : Nat} (h : n < 2 ^ 32) : Reads Reader.u32 (u32Bytes n) n := by
  have hread := u32_mod n
  rwa [Nat.mod_eq_of_lt h] at hread

theorem u64 (x : UInt64) : Reads Reader.u64 (u64Bytes x) x := by
  have hread : Reads Reader.u64 (u64Bytes x) (UInt64.ofNat (leNat (u64Bytes x))) :=
    (take (length_leBytes 8 x.toNat)).map fun bs => UInt64.ofNat (leNat bs)
  rwa [u64Bytes, leNat_leBytes (show x.toNat < 256 ^ 8 from x.toNat_lt), UInt64.ofNat_toNat] at hread

theorem sizedBytes {bs : Bytes} (h : bs.length < 2 ^ 32) : Reads Reader.sizedBytes (sized bs) bs :=
  (u32 h).bind (take rfl)

/-- A counted loop reads the encodings of a list one after the other, folding its elements into the
accumulator. -/
theorem iterate {body : β → Reader β} {f : β → α → β} {enc : α → Bytes} {xs : List α}
    (h : ∀ x ∈ xs, ∀ acc, Reads (body acc) (enc x) (f acc x)) (acc : β) :
    Reads (Reader.iterate body xs.length acc) (xs.flatMap enc) (xs.foldl f acc) := by
  induction xs generalizing acc with
  | nil => exact pure acc
  | cons x xs ih =>
      rw [List.forall_mem_cons] at h
      rw [List.flatMap_cons]
      exact (h.1 acc).bind (ih h.2 (f acc x))

theorem many {r : Reader α} {enc : α → Bytes} {xs : List α} (h : ∀ x ∈ xs, Reads r (enc x) x) :
    Reads (Reader.many r xs.length) (xs.flatMap enc) xs := by
  have hfold : ∀ ys : List α, xs.foldl (fun acc x => acc ++ [x]) ys = ys ++ xs := by
    intro ys
    induction xs generalizing ys with
    | nil => simp
    | cons x xs ih => rw [List.foldl_cons, ih fun y hy => h y (.tail _ hy)]; simp
  have hread : Reads (Reader.many r xs.length) (xs.flatMap enc) (xs.foldl (fun acc x => acc ++ [x]) []) :=
    iterate (fun x hx acc => (h x hx).map fun x => acc ++ [x]) []
  rwa [hfold, List.nil_append] at hread

/-- A reader that must reach the end of the input, on exactly an encoding. -/
theorem parse {ε : Type} (malformed : ε) {r : Reader α} {bs : Bytes} {x : α} (h : Reads r bs x) :
    (do let x ← r; eof; return x : Reader α).parse malformed bs = .ok x := by
  have hrun := h []
  rw [List.append_nil] at hrun
  refine parse_eq_ok.mpr ⟨[], ?_⟩
  rw [bind_apply, hrun]
  rfl

end Reads

/-! ## Postconditions -/

/-- Every value the reader can return satisfies `P`. -/
def Yields (r : Reader α) (P : α → Prop) : Prop := ∀ bs x rest, r bs = some (x, rest) → P x

namespace Yields

theorem pure {P : α → Prop} {x : α} (h : P x) : Yields (Pure.pure x) P := by
  intro bs y rest hy
  cases hy
  exact h

/-- A branch that rejects the input. -/
theorem reject {P : α → Prop} : Yields (failure : Reader α) P := by
  intro bs y rest hy
  cases hy

theorem bind {r : Reader α} {f : α → Reader β} {P : α → Prop} {Q : β → Prop} (h : Yields r P)
    (hf : ∀ x, P x → Yields (f x) Q) : Yields (r >>= f) Q := by
  intro bs y rest hy
  obtain ⟨⟨x, mid⟩, hx, hy⟩ := Option.bind_eq_some_iff.mp hy
  exact hf x (h bs x mid hx) mid y rest hy

/-- A reader whose value does not matter. -/
theorem any (r : Reader α) : Yields r fun _ => True := fun _ _ _ _ => trivial

theorem map {r : Reader α} {P : β → Prop} {f : α → β} (h : Yields r fun x => P (f x)) : Yields (f <$> r) P := by
  intro bs y rest hy
  rw [map_apply] at hy
  obtain ⟨⟨x, mid⟩, hx, heq⟩ := Option.map_eq_some_iff.mp hy
  obtain ⟨rfl, rfl⟩ := Prod.mk.inj heq
  exact h bs x mid hx

theorem take (n : Nat) : Yields (Reader.take n) fun bs => bs.length = n := by
  intro bs x rest h
  obtain ⟨hle, heq⟩ := Option.ite_none_right_eq_some.mp h
  obtain ⟨rfl, -⟩ := Prod.mk.inj (Option.some.inj heq)
  exact List.length_take_of_le hle

theorem u32 : Yields Reader.u32 fun n => n < 2 ^ 32 :=
  map fun bs x rest h => by
    have hlt := leNat_lt x
    rwa [take 4 bs x rest h] at hlt

theorem sizedBytes : Yields Reader.sizedBytes fun bs => bs.length < 2 ^ 32 :=
  u32.bind fun n hn bs x rest h => by
    rw [take n bs x rest h]
    exact hn

theorem iterate {body : β → Reader β} {I : β → Prop} (hbody : ∀ acc, I acc → Yields (body acc) I) (n : Nat)
    {acc : β} (h : I acc) : Yields (Reader.iterate body n acc) I := by
  induction n generalizing acc with
  | zero => exact pure h
  | succ n ih => exact (hbody acc h).bind fun _ => ih

theorem many {r : Reader α} {P : α → Prop} (h : Yields r P) (n : Nat) :
    Yields (Reader.many r n) fun xs => ∀ x ∈ xs, P x := by
  refine iterate (fun xs hxs => map fun bs x rest hx => ?_) n (by simp)
  exact List.forall_mem_append.mpr ⟨hxs, List.forall_mem_singleton.mpr (h bs x rest hx)⟩

theorem parse_eof {ε : Type} {malformed : ε} {r : Reader α} {P : α → Prop} (h : Yields r P) {bs : Bytes} {x : α}
    (hx : (do let x ← r; eof; return x : Reader α).parse malformed bs = .ok x) : P x := by
  obtain ⟨rest, hrun⟩ := eq_some_of_parse_eof hx
  exact h bs x rest hrun

end Yields

/-! ## Exactness -/

/-- Every value the reader can return and the bytes it took for it satisfy `P`. -/
def Consumes (r : Reader α) (P : α → Bytes → Prop) : Prop :=
  ∀ bs x rest, r bs = some (x, rest) → ∃ used, bs = used ++ rest ∧ P x used

namespace Consumes

theorem pure {P : α → Bytes → Prop} {x : α} (h : P x []) : Consumes (Pure.pure x) P := by
  intro bs y rest hy
  cases hy
  exact ⟨[], rfl, h⟩

theorem reject {P : α → Bytes → Prop} : Consumes (failure : Reader α) P := by
  intro bs y rest hy
  cases hy

/-- What two readers in a row consume is what the first consumes, followed by what the second does. -/
theorem bind {r : Reader α} {f : α → Reader β} {P : α → Bytes → Prop} {Q : β → Bytes → Prop} (h : Consumes r P)
    (hf : ∀ x used, P x used → Consumes (f x) fun y more => Q y (used ++ more)) : Consumes (r >>= f) Q := by
  intro bs y rest hrun
  obtain ⟨⟨x, mid⟩, hx, hy⟩ := Option.bind_eq_some_iff.mp hrun
  obtain ⟨used, rfl, hP⟩ := h bs x mid hx
  obtain ⟨more, rfl, hQ⟩ := hf x used hP mid y rest hy
  exact ⟨used ++ more, (List.append_assoc used more rest).symm, hQ⟩

theorem map {r : Reader α} {P : β → Bytes → Prop} {f : α → β} (h : Consumes r fun x => P (f x)) :
    Consumes (f <$> r) P := by
  intro bs y rest hy
  rw [map_apply] at hy
  obtain ⟨⟨x, mid⟩, hx, heq⟩ := Option.map_eq_some_iff.mp hy
  obtain ⟨rfl, rfl⟩ := Prod.mk.inj heq
  exact h bs x mid hx

/-- A check consumes nothing. -/
theorem check (p : Prop) [Decidable p] : Consumes (guard p) fun _ used => used = [] ∧ p := by
  by_cases hp : p
  · rw [show (guard p : Reader Unit) = Pure.pure () from if_pos hp]
    exact pure ⟨rfl, hp⟩
  · rw [show (guard p : Reader Unit) = failure from if_neg hp]
    exact reject

theorem byte : Consumes Reader.byte fun b used => used = [b] := by
  intro bs b rest h
  cases bs with
  | nil => cases h
  | cons c cs =>
      obtain ⟨rfl, rfl⟩ := Prod.mk.inj (Option.some.inj h)
      exact ⟨[c], rfl, rfl⟩

theorem take (n : Nat) : Consumes (Reader.take n) fun bs used => used = bs ∧ bs.length = n := by
  intro bs x rest h
  obtain ⟨hle, heq⟩ := Option.ite_none_right_eq_some.mp h
  obtain ⟨rfl, rfl⟩ := Prod.mk.inj (Option.some.inj heq)
  exact ⟨bs.take n, (List.take_append_drop n bs).symm, rfl, List.length_take_of_le hle⟩

theorem u32 : Consumes Reader.u32 fun n used => used = u32Bytes n ∧ n < 2 ^ 32 := by
  refine map fun bs x rest h => ?_
  obtain ⟨used, hbs, rfl, hlen⟩ := take 4 bs x rest h
  have hbytes := leBytes_leNat used
  have hlt := leNat_lt used
  rw [hlen] at hbytes hlt
  exact ⟨used, hbs, hbytes.symm, hlt⟩

theorem u64 : Consumes Reader.u64 fun x used => used = u64Bytes x := by
  refine map fun bs x rest h => ?_
  obtain ⟨used, hbs, rfl, hlen⟩ := take 8 bs x rest h
  have hbytes := leBytes_leNat used
  have hlt := leNat_lt used
  rw [hlen] at hbytes hlt
  refine ⟨used, hbs, ?_⟩
  show used = leBytes 8 (UInt64.ofNat (leNat used)).toNat
  rw [UInt64.toNat_ofNat_of_lt' hlt, hbytes]

theorem sizedBytes : Consumes Reader.sizedBytes fun bs used => used = sized bs ∧ bs.length < 2 ^ 32 := by
  refine u32.bind ?_
  rintro n used ⟨rfl, hn⟩ bs x rest h
  obtain ⟨more, hbs, rfl, rfl⟩ := take n bs x rest h
  exact ⟨more, hbs, rfl, hn⟩

/-- A counted loop, by an invariant of the accumulator and of what was consumed for it. -/
theorem iterate {body : β → Reader β} {I : Nat → β → Bytes → Prop}
    (hbody : ∀ i acc used, I i acc used → Consumes (body acc) fun acc' more => I (i + 1) acc' (used ++ more))
    (n : Nat) {i : Nat} {acc : β} {used : Bytes} (h : I i acc used) :
    Consumes (Reader.iterate body n acc) fun acc' more => I (i + n) acc' (used ++ more) := by
  induction n generalizing i acc used with
  | zero =>
      refine pure ?_
      rwa [List.append_nil]
  | succ n ih =>
      refine (hbody i acc used h).bind fun acc' more h' => ?_
      have hrest := ih h'
      rw [Nat.add_right_comm, Nat.add_assoc] at hrest
      intro bs y rest hy
      obtain ⟨last, hbs, hI⟩ := hrest bs y rest hy
      rw [List.append_assoc] at hI
      exact ⟨last, hbs, hI⟩

theorem many {r : Reader α} {enc : α → Bytes} (h : Consumes r fun x used => used = enc x) (n : Nat) :
    Consumes (Reader.many r n) fun xs used => used = xs.flatMap enc ∧ xs.length = n := by
  have hloop : Consumes (Reader.many r n) fun xs more => [] ++ more = xs.flatMap enc ∧ xs.length = 0 + n := by
    refine iterate (I := fun i (xs : List α) used => used = xs.flatMap enc ∧ xs.length = i) ?_ n ⟨rfl, rfl⟩
    rintro i xs used ⟨rfl, rfl⟩
    refine map fun bs x rest hx => ?_
    obtain ⟨more, hbs, rfl⟩ := h bs x rest hx
    refine ⟨_, hbs, ?_, ?_⟩
    · rw [List.flatMap_append, List.flatMap_singleton]
    · rw [List.length_append, List.length_singleton]
  simpa only [Nat.zero_add, List.nil_append] using hloop

/-- With the end of the input behind it, the reader has consumed the whole input. -/
theorem parse_eof {ε : Type} {malformed : ε} {r : Reader α} {P : α → Bytes → Prop} (h : Consumes r P) {bs : Bytes}
    {x : α} (hx : (do let x ← r; eof; return x : Reader α).parse malformed bs = .ok x) : P x bs := by
  obtain ⟨rest, hrun⟩ := parse_eq_ok.mp hx
  obtain ⟨⟨y, mid⟩, hr, hy⟩ := Option.bind_eq_some_iff.mp hrun
  obtain ⟨rfl, hpure⟩ := eof_bind_eq_some hy
  cases hpure
  obtain ⟨used, rfl, hP⟩ := h bs x [] hr
  rwa [List.append_nil]

end Consumes

end Reader

end Codec
