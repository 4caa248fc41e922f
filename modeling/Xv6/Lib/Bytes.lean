/-
Xv6/Lib/Bytes.lean

Fixed-size byte buffers and little-endian fields inside them.

A buffer of `N` bytes is a function on `Fin N`; `get` reads it at a natural
number, so that offset arithmetic stays in `Nat`.  Two operations carry
everything that `memmove` does to a buffer:

    slice b off len     the `len` bytes from `off` on
    patch b off src     `b` with the bytes from `off` on replaced by `src`

and the lemmas say how a slice sees a patch: whole (`slice_patch_self`), not
at all (`slice_patch_disjoint`), byte by byte (`get_patch`).  Little-endian
fields are slices of a fixed width (`readLE`, `writeLE`).  Bit `i` is bit
`i % 8` of byte `i / 8` (`testBit`).

`splice` is the same operation on a list, which can grow, and `Pasted` says that it has
happened to a function.
-/
import Mathlib.Algebra.BigOperators.Fin
import Mathlib.Data.Fintype.BigOperators
import Mathlib.Data.Nat.Bitwise
import Mathlib.Tactic

namespace Xv6

open Function List

/-- A buffer of `N` bytes. -/
def Bytes (N : Nat) : Type := Fin N → UInt8

namespace Bytes

variable {N : Nat}

instance : DecidableEq (Bytes N) := inferInstanceAs (DecidableEq (Fin N → UInt8))

/-- Byte `i` of the buffer; positions past the end read as `0`. -/
def get (b : Bytes N) (i : Nat) : UInt8 :=
  if h : i < N then b ⟨i, h⟩ else 0

/-- The buffer whose byte `i` is `f i`. -/
def ofFn (f : Nat → UInt8) : Bytes N := fun i => f i

/-- The buffer of zero bytes. -/
def zero : Bytes N := fun _ => 0

instance : Inhabited (Bytes N) := ⟨zero⟩

variable {i len off off' k : Nat}

theorem get_ofFn (f : Nat → UInt8) (h : i < N) : (ofFn f : Bytes N).get i = f i := by
  simp [get, ofFn, h]

@[simp] theorem get_zero (i : Nat) : (zero : Bytes N).get i = 0 := by
  simp [get, zero]

/-! ### Slices and patches -/

/-- The `len` bytes from `off` on. -/
def slice (b : Bytes N) (off len : Nat) : List UInt8 :=
  (range len).map fun i => b.get (off + i)

/-- The buffer with the bytes from `off` on overwritten by `src`. -/
def patch (b : Bytes N) (off : Nat) (src : List UInt8) : Bytes N :=
  ofFn fun i => if off ≤ i ∧ i < off + src.length then src.getD (i - off) 0 else b.get i

section

variable (b : Bytes N)

include b

@[simp] theorem slice_length (off len : Nat) : (b.slice off len).length = len := by
  simp [slice]

theorem slice_getD (off : Nat) (h : i < len) : (b.slice off len).getD i 0 = b.get (off + i) := by
  simp [slice, getD_eq_getElem?_getD, h]

theorem get_patch (off : Nat) (src : List UInt8) (h : i < N) :
    (b.patch off src).get i
      = if off ≤ i ∧ i < off + src.length then src.getD (i - off) 0 else b.get i :=
  get_ofFn _ h

theorem get_patch_of_lt (src : List UInt8) (h : i < off) : (b.patch off src).get i = b.get i := by
  by_cases hN : i < N
  · rw [get_patch b off src hN, if_neg (by omega)]
  · simp [get, hN]

theorem get_patch_of_ge (src : List UInt8) (h : off + src.length ≤ i) : (b.patch off src).get i = b.get i := by
  by_cases hN : i < N
  · rw [get_patch b off src hN, if_neg (by omega)]
  · simp [get, hN]

theorem slice_patch_self (off : Nat) (src : List UInt8)
    (h : off + src.length ≤ N) : (b.patch off src).slice off src.length = src := by
  refine ext_getElem (by simp) fun i h₁ h₂ => ?_
  have hi : off + i < N := by omega
  simp only [slice, getElem_map, getElem_range]
  rw [get_patch b off src hi, if_pos (by omega), Nat.add_sub_cancel_left]
  simp [getD_eq_getElem?_getD, h₂]

theorem slice_patch_disjoint (src : List UInt8) (h : off' + len ≤ off ∨ off + src.length ≤ off') :
    (b.patch off src).slice off' len = b.slice off' len := by
  refine map_congr_left fun i hi => ?_
  have hi' : i < len := mem_range.mp hi
  rcases h with h | h
  · exact get_patch_of_lt b src (by omega)
  · exact get_patch_of_ge b src (by omega)

end

/-! ### Little-endian fields -/

/-- The number whose little-endian digits are the given bytes. -/
def ofLE : List UInt8 → Nat
  | [] => 0
  | x :: xs => x.toNat + 256 * ofLE xs

/-- The `k` low bytes of `v`, little-endian. -/
def toLE : Nat → Nat → List UInt8
  | 0, _ => []
  | k + 1, v => UInt8.ofNat v :: toLE k (v / 256)

@[simp] theorem toLE_length (k v : Nat) : (toLE k v).length = k := by
  induction k generalizing v with
  | zero => rfl
  | succ k ih => simp [toLE, ih]

theorem ofLE_toLE (k v : Nat) : ofLE (toLE k v) = v % 256 ^ k := by
  induction k generalizing v with
  | zero => simp [toLE, ofLE, Nat.mod_one]
  | succ k ih =>
    have hx : (UInt8.ofNat v).toNat = v % 256 := UInt8.toNat_ofNat'
    rw [toLE, ofLE, ih, hx, pow_succ', Nat.mod_mul]

/-- The `k`-byte little-endian field at `off`. -/
def readLE (b : Bytes N) (off k : Nat) : Nat := ofLE (b.slice off k)

/-- The buffer with the `k`-byte little-endian field at `off` set to `v`. -/
def writeLE (b : Bytes N) (off k v : Nat) : Bytes N := b.patch off (toLE k v)

theorem ofLE_replicate_zero (k : Nat) : ofLE (replicate k 0) = 0 := by
  induction k with
  | zero => rfl
  | succ k ih => rw [replicate_succ, ofLE, ih]; rfl

theorem readLE_zero (off k : Nat) : (zero : Bytes N).readLE off k = 0 := by
  unfold readLE slice
  simp only [get_zero, map_const', length_range]
  exact ofLE_replicate_zero k

theorem readLE_writeLE_self (b : Bytes N) {v : Nat} (h : off + k ≤ N)
    (hv : v < 256 ^ k) : (b.writeLE off k v).readLE off k = v := by
  have hs := slice_patch_self b off (toLE k v) (by simpa using h)
  rw [toLE_length] at hs
  rw [readLE, writeLE, hs, ofLE_toLE, Nat.mod_eq_of_lt hv]

theorem readLE_writeLE_disjoint (b : Bytes N) {k' : Nat} (v : Nat) (h : off' + k' ≤ off ∨ off + k ≤ off') :
    (b.writeLE off k v).readLE off' k' = b.readLE off' k' := by
  rw [readLE, writeLE, slice_patch_disjoint b _ (by simpa using h), readLE]

/-! ### Bits -/

/-- Bit `i` of the buffer: bit `i % 8` of byte `i / 8`. -/
def testBit (b : Bytes N) (i : Nat) : Bool := (b.get (i / 8)).toNat.testBit (i % 8)

/-- The byte with only bit `i % 8` set. -/
def mask (i : Nat) : UInt8 := 1 <<< UInt8.ofNat (i % 8)

/-- The buffer with bit `i` set. -/
def orBit (b : Bytes N) (i : Nat) : Bytes N := b.patch (i / 8) [b.get (i / 8) ||| mask i]

/-- The buffer with bit `i` cleared. -/
def clearBit (b : Bytes N) (i : Nat) : Bytes N := b.patch (i / 8) [b.get (i / 8) &&& ~~~ mask i]

theorem mask_toNat (i : Nat) : (mask i).toNat = 2 ^ (i % 8) := by
  have hlt : i % 8 < 8 := Nat.mod_lt _ (by decide)
  unfold mask
  generalize i % 8 = k at hlt
  interval_cases k <;> decide

theorem and_mask_eq_zero (b : Bytes N) (i : Nat) : b.get (i / 8) &&& mask i = 0 ↔ b.testBit i = false := by
  rw [← UInt8.toNat_inj, UInt8.toNat_and, mask_toNat, Nat.and_two_pow]
  show _ = 0 ↔ (b.get (i / 8)).toNat.testBit (i % 8) = false
  rcases (b.get (i / 8)).toNat.testBit (i % 8) with - | - <;> simp

theorem testBit_not (x : UInt8) (hk : k < 8) : (~~~ x).toNat.testBit k = !x.toNat.testBit k := by
  rw [UInt8.toNat_not, show UInt8.size - 1 - x.toNat = 2 ^ 8 - (x.toNat + 1) by
    have := x.toNat_lt; simp only [UInt8.size]; omega, Nat.testBit_two_pow_sub_succ x.toNat_lt]
  simp [hk]

theorem get_patch_single (b : Bytes N) (x : UInt8) (h : i < N) (j : Nat) :
    (b.patch i [x]).get j = if j = i then x else b.get j := by
  rcases eq_or_ne j i with rfl | hj
  · rw [get_patch b j [x] h, if_pos (by simp), if_pos rfl]
    simp
  rw [if_neg hj]
  rcases Nat.lt_or_gt_of_ne hj with hlt | hgt
  · exact get_patch_of_lt b [x] hlt
  · exact get_patch_of_ge b [x] hgt

theorem testBit_orBit (b : Bytes N) (h : i / 8 < N) (j : Nat) :
    (b.orBit i).testBit j = (b.testBit j || decide (j = i)) := by
  unfold testBit orBit
  rw [get_patch_single b _ h]
  by_cases hij : j / 8 = i / 8
  · rw [if_pos hij, UInt8.toNat_or, Nat.testBit_or, mask_toNat, Nat.testBit_two_pow, hij]
    congr 1
    refine decide_eq_decide.mpr ⟨fun hm => ?_, fun hj => by rw [hj]⟩
    omega
  · rw [if_neg hij, decide_eq_false (fun hj => hij (by rw [hj])), Bool.or_false]

theorem testBit_clearBit (b : Bytes N) (h : i / 8 < N) (j : Nat) :
    (b.clearBit i).testBit j = (b.testBit j && !decide (j = i)) := by
  unfold testBit clearBit
  rw [get_patch_single b _ h]
  by_cases hij : j / 8 = i / 8
  · rw [if_pos hij, UInt8.toNat_and, Nat.testBit_and, testBit_not _ (Nat.mod_lt _ (by decide)),
      mask_toNat, Nat.testBit_two_pow, hij]
    congr 2
    refine decide_eq_decide.mpr ⟨fun hm => ?_, fun hj => by rw [hj]⟩
    omega
  · rw [if_neg hij, decide_eq_false (fun hj => hij (by rw [hj]))]
    simp

end Bytes

/-! ### Replacing part of a list -/

section Splice

variable {α : Type*}

/-- The list with the elements from `off` on replaced by `src`; it grows if `src` reaches
past its end. -/
def splice (l : List α) (off : Nat) (src : List α) : List α :=
  l.take off ++ (src ++ l.drop (off + src.length))

variable {l : List α} {off : Nat}

section

variable (h : off ≤ l.length)

include h

theorem splice_length (src : List α) : (splice l off src).length = max l.length (off + src.length) := by
  simp only [splice, length_append, length_take, length_drop]
  omega

theorem getElem?_splice (src : List α) (k : Nat) :
    (splice l off src)[k]?
      = if off ≤ k ∧ k < off + src.length then src[k - off]? else l[k]? := by
  have hlen : (l.take off).length = off := length_take_of_le h
  unfold splice
  by_cases hk : k < off
  · rw [if_neg (by omega), getElem?_append_left (by omega), getElem?_take_of_lt hk]
  rw [getElem?_append_right (by omega), hlen]
  by_cases hk' : k < off + src.length
  · rw [if_pos ⟨by omega, hk'⟩, getElem?_append_left (by omega)]
  · rw [if_neg (by omega), getElem?_append_right (by omega), getElem?_drop]
    congr 1
    omega

/-- Two adjoining parts are replaced one after the other or together. -/
theorem splice_splice (a b : List α) : splice (splice l off a) (off + a.length) b = splice l off (a ++ b) := by
  have h' : off + a.length ≤ (splice l off a).length := by
    rw [splice_length h]
    exact le_max_right _ _
  refine ext_getElem? fun k => ?_
  rw [getElem?_splice h', getElem?_splice h, getElem?_splice h, length_append]
  by_cases hb : off + a.length ≤ k
  · by_cases hk : k < off + a.length + b.length
    · rw [if_pos ⟨hb, hk⟩, if_pos (by omega), getElem?_append_right (by omega)]
      congr 1
      omega
    · rw [if_neg (by omega), if_neg (by omega), if_neg (by omega)]
  · rw [if_neg (by omega)]
    by_cases ha : off ≤ k
    · rw [if_pos (by omega), if_pos (by omega), getElem?_append_left (by omega)]
    · rw [if_neg (by omega), if_neg (by omega)]

/-- What was put in is there. -/
theorem drop_take_splice (src : List α) : ((splice l off src).drop off).take src.length = src := by
  have hlen : (l.take off).length = off := length_take_of_le h
  unfold splice
  rw [drop_left' hlen, take_left]

end

theorem splice_nil (off : Nat) : splice l off [] = l := by
  unfold splice
  rw [nil_append, length_nil, Nat.add_zero, take_append_drop]

end Splice

/-! ### Functions that have changed on an interval -/

section Pasted

variable {α : Type*} {f f₁ f₂ : Nat → α} {d n m : Nat} {b b' : Nat → α}

/-- The `n` values from position `d` on are the values `b`, and nothing else has changed. -/
def Pasted (f' f : Nat → α) (d n : Nat) (b : Nat → α) : Prop :=
  ∀ j, f' j = if d ≤ j ∧ j < d + n then b (j - d) else f j

theorem Pasted.zero (f : Nat → α) (d : Nat) (b : Nat → α) : Pasted f f d 0 b := fun j => by
  rw [if_neg (by omega)]

theorem Pasted.one (f : Nat → α) (d : Nat) (b : Nat → α) : Pasted (update f d (b 0)) f d 1 b := fun j => by
  by_cases hd : j = d
  · rw [hd, update_self, if_pos (by omega), Nat.sub_self]
  · rw [update_of_ne hd, if_neg (by omega)]

section

variable (h : Pasted f₁ f d n b)

include h

theorem Pasted.append (h' : Pasted f₂ f₁ (d + n) m fun j => b (n + j)) :
    Pasted f₂ f d (n + m) b := fun j => by
  rw [h' j, h j]
  by_cases hj : d + n ≤ j ∧ j < d + n + m
  · rw [if_pos hj, if_pos (by omega)]
    exact congrArg b (by omega)
  rw [if_neg hj]
  by_cases hj' : d ≤ j ∧ j < d + n
  · rw [if_pos hj', if_pos (by omega)]
  · rw [if_neg hj', if_neg (by omega)]

theorem Pasted.unique (h' : Pasted f₂ f d n b) : f₂ = f₁ :=
  funext fun j => by rw [h j, h' j]

theorem Pasted.congr (hb : ∀ j, j < n → b j = b' j) : Pasted f₁ f d n b' := fun j => by
  rw [h j]
  by_cases hj : d ≤ j ∧ j < d + n
  · rw [if_pos hj, if_pos hj, hb (j - d) (by omega)]
  · rw [if_neg hj, if_neg hj]

end

end Pasted

end Xv6
