/-
Xv6/Memmove.lean

The two `memmove`s, of kernel/string.c and of user/ulib.c, on regions that may overlap.

A memory gives each 64-bit address its byte, and address arithmetic wraps around.  Both
functions run one of two loops, `copyUp` and `copyDown`, and differ in the test that
chooses it.  A loop reads bytes that it may have overwritten: `copyUp` is right unless
`dst` is less than `n` bytes after `src`, and `copyDown` unless it is less than `n` bytes
before.  For regions that do not wrap around, each test implies what its loop needs.
-/
import Mathlib.Tactic

namespace Xv6.Memmove

open Function

/-! ### The two functions -/

/-- The bytes of an address space. -/
abbrev Mem : Type := UInt64 → UInt8

/-- The loop `while(n-- > 0) *d++ = *s++`, of `n` rounds. -/
def copyUp : Nat → Mem → UInt64 → UInt64 → Mem
  | 0, m, _, _ => m
  | n + 1, m, d, s => copyUp n (update m d (m s)) (d + 1) (s + 1)

/-- The loop `while(n-- > 0) *--d = *--s`, of `n` rounds. -/
def copyDown : Nat → Mem → UInt64 → UInt64 → Mem
  | 0, m, _, _ => m
  | n + 1, m, d, s => copyDown n (update m (d - 1) (m (s - 1))) (d - 1) (s - 1)

/-- `memmove` of the kernel.  Returns `dst`, with the memory. -/
def memmove (m : Mem) (dst src : UInt64) (n : UInt32) : UInt64 × Mem :=
  if n = 0 then (dst, m)
  else if src < dst ∧ src + n.toUInt64 > dst then
    (dst, copyDown n.toNat m (dst + n.toUInt64) (src + n.toUInt64))
  else (dst, copyUp n.toNat m dst src)

/-- `memmove` of the user library, where `n` is an `int`; if it is negative there is no round. -/
def Ulib.memmove (m : Mem) (vdst vsrc : UInt64) (n : Int32) : UInt64 × Mem :=
  if vsrc > vdst then (vdst, copyUp n.toNatClampNeg m vdst vsrc)
  else (vdst, copyDown n.toNatClampNeg m (vdst + .ofInt n.toInt) (vsrc + .ofInt n.toInt))

/-! ### The loops -/

/-- **Bytes have been moved**, those with the indices `I`: at `dst` they are what they were at `src`, and all other bytes
are as before. -/
structure Moved (m m' : Mem) (dst src : UInt64) (I : UInt64 → Prop) : Prop where
  bytes : ∀ i, I i → m' (dst + i) = m (src + i)
  rest : ∀ a, (∀ i, I i → a ≠ dst + i) → m' a = m a

variable {m m' m₁ m₂ : Mem} {d s dst src j k : UInt64} {I J : UInt64 → Prop} {n : Nat}

/-- There is one way to move. -/
theorem Moved.unique (h₁ : Moved m m₁ d s I) (h₂ : Moved m m₂ d s I) : m₁ = m₂ := by
  funext a
  by_cases ha : ∃ i, I i ∧ a = d + i
  · obtain ⟨i, hi, rfl⟩ := ha
    rw [h₁.bytes i hi, h₂.bytes i hi]
  · have hout : ∀ i, I i → a ≠ d + i := fun i hi heq => ha ⟨i, hi, heq⟩
    rw [h₁.rest a hout, h₂.rest a hout]

theorem Moved.none (h : ∀ i, ¬ I i) : Moved m m d s I := ⟨fun i hi => absurd hi (h i), fun _ _ => rfl⟩

/-- **A round**: byte `j` is moved, and the later rounds neither write nor read there. -/
theorem Moved.round (h : Moved (update m (d + j) (m (s + j))) m' d s J) (hI : ∀ i, I i ↔ i = j ∨ J i) (hj : ¬ J j)
    (hread : ∀ i, J i → s + i ≠ d + j) : Moved m m' d s I where
  bytes i hi := by
    rcases (hI i).mp hi with rfl | hi
    · have hout : ∀ i', J i' → d + i ≠ d + i' := by
        intro i' hi' heq
        rw [UInt64.add_right_inj] at heq
        exact hj (heq ▸ hi')
      rw [h.rest _ hout, update_self]
    · rw [h.bytes i hi, update_of_ne (hread i hi)]
  rest a ha := by
    rw [h.rest a fun i hi => ha i ((hI i).mpr (.inr hi)), update_of_ne (ha j ((hI j).mpr (.inl rfl)))]

/-- **Upwards**, from index `k` on, `dst` must not be just after `src`. -/
theorem copyUp_moved (hk : k.toNat + n < 2 ^ 64) (h : d = s ∨ k.toNat + n ≤ (d - s).toNat) :
    Moved m (copyUp n m (d + k) (s + k)) d s fun i => k.toNat ≤ i.toNat ∧ i.toNat < k.toNat + n := by
  induction n generalizing m k with
  | zero => exact .none (by omega)
  | succ n ih =>
    have hk1 : (k + 1).toNat = k.toNat + 1 := by
      rw [UInt64.toNat_add, show (1 : UInt64).toNat = 1 from rfl, Nat.mod_eq_of_lt (by omega)]
    rw [copyUp, UInt64.add_assoc, UInt64.add_assoc]
    refine (ih (by omega) (h.imp_right (by omega))).round (fun i => ?_) (by omega) fun i hi heq => ?_
    · rw [← UInt64.toNat_inj]
      omega
    · have hgap : d - s = i - k := by grind
      rw [hgap, UInt64.toNat_sub_of_le _ _ (UInt64.le_iff_toNat_le.mpr (by omega))] at h
      rcases h with rfl | h
      · rw [UInt64.add_right_inj] at heq
        subst heq
        omega
      · omega

theorem copyUp_all (hn : n < 2 ^ 64) (h : d = s ∨ n ≤ (d - s).toNat) :
    Moved m (copyUp n m d s) d s fun i => i.toNat < n := by
  have hup := copyUp_moved (m := m) (d := d) (s := s) (k := 0) (n := n) (by simpa using hn) (by simpa using h)
  simpa using hup

/-- **Downwards**, from index `k` on, `dst` must not be just before `src`. -/
theorem copyDown_moved (hk : k.toNat = n) (h : s = d ∨ n ≤ (s - d).toNat) :
    Moved m (copyDown n m (d + k) (s + k)) d s fun i => i.toNat < n := by
  induction n generalizing m k with
  | zero => exact .none (by omega)
  | succ n ih =>
    have hk1 : (k - 1).toNat = n := by
      have hlt := k.toNat_lt
      rw [UInt64.toNat_sub, show (1 : UInt64).toNat = 1 from rfl]
      omega
    rw [copyDown, show d + k - 1 = d + (k - 1) by grind, show s + k - 1 = s + (k - 1) by grind]
    refine (ih hk1 (h.imp_right (by omega))).round (fun i => ?_) (by omega) fun i hi heq => ?_
    · rw [← UInt64.toNat_inj]
      omega
    · have hgap : s - d = k - 1 - i := by grind
      rw [hgap, UInt64.toNat_sub_of_le _ _ (UInt64.le_iff_toNat_le.mpr (by omega))] at h
      rcases h with rfl | h
      · rw [UInt64.add_right_inj] at heq
        subst heq
        omega
      · omega

/-! ### The results -/

/-- The `n` bytes from `p` on are inside the address space. -/
def NoWrap (p : UInt64) (n : Nat) : Prop := p.toNat + n ≤ 2 ^ 64

instance (p : UInt64) (n : Nat) : Decidable (NoWrap p n) := inferInstanceAs (Decidable (_ ≤ _))

/-- From `src` around the address space to an address that is not higher, it is far. -/
theorem NoWrap.far (h : NoWrap src n) (hle : dst ≤ src) : dst = src ∨ n ≤ (dst - src).toNat := by
  have hle := UInt64.le_iff_toNat_le.mp hle
  have hsrc := src.toNat_lt
  rw [NoWrap] at h
  rw [← UInt64.toNat_inj, UInt64.toNat_sub]
  omega

theorem memmove_moved {n : UInt32} (hd : NoWrap dst n.toNat) (hs : NoWrap src n.toNat) :
    Moved m (memmove m dst src n).2 dst src fun i => i.toNat < n.toNat := by
  have hn := n.toNat_lt
  rw [memmove]
  split
  case isTrue h0 =>
    rw [h0]
    exact .none fun i => Nat.not_lt_zero _
  case isFalse h0 =>
    split
    case isTrue h => exact copyDown_moved n.toNat_toUInt64 (hd.far (UInt64.le_of_lt h.1))
    case isFalse h =>
      refine copyUp_all (by omega) ?_
      by_cases hlt : src < dst
      · -- the regions do not overlap
        have hle := UInt64.le_iff_toNat_le.mp (UInt64.not_lt.mp fun hgt => h ⟨hlt, hgt⟩)
        have hlt := UInt64.lt_iff_toNat_lt.mp hlt
        rw [NoWrap] at hd
        rw [UInt64.toNat_add, UInt32.toNat_toUInt64] at hle
        right
        rw [UInt64.toNat_sub]
        omega
      · exact hs.far (UInt64.not_lt.mp hlt)

theorem ulib_memmove_moved {n : Int32} (hn : 0 ≤ n) (hd : NoWrap dst n.toNatClampNeg)
    (hs : NoWrap src n.toNatClampNeg) :
    Moved m (Ulib.memmove m dst src n).2 dst src fun i => i.toNat < n.toNatClampNeg := by
  have hto : (UInt64.ofInt n.toInt).toNat = n.toNatClampNeg := by
    rw [UInt64.ofInt, ← Int32.toNat_toInt]
    have hlt := n.toInt_lt
    have hle := Int32.le_iff_toInt_le.mp hn
    rw [Int32.toInt_zero] at hle
    rw [Int.emod_eq_of_lt hle (by omega), UInt64.toNat_ofNat', Nat.mod_eq_of_lt (by omega)]
  have hlt : n.toNatClampNeg < 2 ^ 64 := hto ▸ UInt64.toNat_lt _
  rw [Ulib.memmove]
  split
  case isTrue h => exact copyUp_all hlt (hs.far (UInt64.le_of_lt h))
  case isFalse h => exact copyDown_moved hto (hd.far (UInt64.not_lt.mp h))

/-- **Both `memmove`s are right on overlapping regions**, whatever the memory, the addresses and the length, unless a
region wraps around; so they have the same effect. -/
theorem memmove_overlap (m : Mem) (dst src : UInt64) :
    (∀ n : UInt32, NoWrap dst n.toNat → NoWrap src n.toNat →
      Moved m (memmove m dst src n).2 dst src fun i => i.toNat < n.toNat) ∧
    ∀ n : Int32, 0 ≤ n → NoWrap dst n.toNatClampNeg → NoWrap src n.toNatClampNeg →
      (Moved m (Ulib.memmove m dst src n).2 dst src fun i => i.toNat < n.toNatClampNeg) ∧
      Ulib.memmove m dst src n = memmove m dst src n.toUInt32 := by
  refine ⟨fun n hd hs => memmove_moved hd hs, fun n hn hd hs => ⟨ulib_memmove_moved hn hd hs, ?_⟩⟩
  have hto : n.toUInt32.toNat = n.toNatClampNeg := Int32.toNat_toUInt32_of_le hn
  have hkernel := memmove_moved (m := m) (n := n.toUInt32) (hto ▸ hd) (hto ▸ hs)
  rw [hto] at hkernel
  refine Prod.ext ?_ ((ulib_memmove_moved hn hd hs).unique hkernel)
  rw [Ulib.memmove, memmove]
  split_ifs <;> rfl

/-- A memory where each byte is its address. -/
def ramp : Mem := fun a => a.toUInt8

/-- Five bytes, two of them moved twice. -/
theorem memmove_overlap_ramp :
    (∀ i : UInt64, i.toNat < 5 → (memmove ramp 3 1 5).2 (3 + i) = ramp (1 + i)) ∧
      Ulib.memmove ramp 3 1 5 = memmove ramp 3 1 5 :=
  ⟨((memmove_overlap ramp 3 1).1 5 (by decide) (by decide)).bytes,
    ((memmove_overlap ramp 3 1).2 5 (by decide) (by decide) (by decide)).2⟩

end Xv6.Memmove
