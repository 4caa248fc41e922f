/-
Xv6/Lib/Fifo.lean

Bounded queues in an array, with counters that run freely and wrap around.

The producer writes slot `w % c` and increments `w`, the consumer reads slot
`r % c` and increments `r`, both modulo `M`.  Nothing is lost at the wrap since the
number `c` of slots divides `M`.

`Holds c M slot r w hist taken` relates this to what has happened: `hist` is all
that was ever put in, and the first `taken` of it were taken out.  The tests for
"empty" and "full" and the two operations follow from it, however often the counters
have wrapped.
-/
import Mathlib.Tactic

namespace Xv6.Fifo

open Function List

variable {α : Type*}

/-- The array and the counters hold what was put in and not taken out. -/
structure Holds (c M : Nat) (slot : Nat → α) (r w : Nat) (hist : List α) (taken : Nat) : Prop where
  dvd : c ∣ M
  lt : c < M
  w : w = hist.length % M
  r : r = taken % M
  le : taken ≤ hist.length
  cap : hist.length ≤ taken + c
  slot : ∀ k a, hist[k]? = some a → taken ≤ k → slot (k % c) = a

namespace Holds

variable {c M : Nat} {slot : Nat → α} {r w : Nat} {hist : List α} {taken : Nat}

section

variable (h : Holds c M slot r w hist taken)

include h

/-- The difference of the counters is the number of elements in the queue. -/
theorem count : (w + (M - r)) % M = hist.length - taken := by
  have hr : r < M := h.r ▸ Nat.mod_lt _ (by have := h.lt; omega)
  have hsum : (w + (M - r) + taken) % M = hist.length % M := by
    have hmod : (M - r + taken) % M = 0 := by
      rw [Nat.add_mod, ← h.r, Nat.mod_add_mod, Nat.sub_add_cancel hr.le, Nat.mod_self]
    rw [add_assoc, Nat.add_mod, hmod, add_zero, Nat.mod_mod, h.w, Nat.mod_mod]
  have hle := h.le
  have hcap := h.cap
  have hlt := h.lt
  have heq : (w + (M - r)) % M = (hist.length - taken) % M := by
    have hcong : (w + (M - r)) + taken ≡ (hist.length - taken) + taken [MOD M] := by
      rw [Nat.sub_add_cancel hle]
      exact hsum
    exact Nat.ModEq.add_right_cancel' taken hcong
  rw [heq, Nat.mod_eq_of_lt (by omega)]

/-- The test for an empty queue. -/
theorem empty_iff : r = w ↔ taken = hist.length := by
  have hle := h.le
  have hcap := h.cap
  have hlt := h.lt
  constructor
  · intro hrw
    have hcong : taken ≡ hist.length [MOD M] := by rw [Nat.ModEq, ← h.r, ← h.w, hrw]
    have hdvd := (Nat.modEq_iff_dvd' hle).mp hcong
    have hzero := Nat.eq_zero_of_dvd_of_lt hdvd (by omega)
    omega
  · intro heq
    rw [h.r, h.w, heq]

/-- The test for a full queue. -/
theorem full_iff : w = (r + c) % M ↔ hist.length = taken + c := by
  have hle := h.le
  have hcap := h.cap
  have hlt := h.lt
  rw [h.w, h.r, Nat.mod_add_mod]
  constructor
  · intro hmod
    have hcong : hist.length ≡ taken + c [MOD M] := hmod
    have hdvd := (Nat.modEq_iff_dvd' hcap).mp hcong
    have hzero := Nat.eq_zero_of_dvd_of_lt hdvd (by omega)
    omega
  · exact fun heq => by rw [heq]

/-- The next slot to be written holds nothing that is in the queue. -/
theorem write (a : α) (hroom : hist.length < taken + c) : Holds c M (update slot (w % c) a) r w hist taken := by
  have hw : w % c = hist.length % c := by rw [h.w, Nat.mod_mod_of_dvd _ h.dvd]
  refine ⟨h.dvd, h.lt, h.w, h.r, h.le, h.cap, fun k b hk hkt => ?_⟩
  have hlt : k < hist.length := (List.getElem?_eq_some_iff.mp hk).1
  have hne : k % c ≠ hist.length % c := by
    intro hmod
    have hdvd := (Nat.modEq_iff_dvd' hlt.le).mp hmod
    have hzero := Nat.eq_zero_of_dvd_of_lt hdvd (by omega)
    omega
  rw [hw, update_of_ne hne]
  exact h.slot k b hk hkt

/-- The counter is incremented once the slot is written. -/
theorem push {a : α} (ha : slot (w % c) = a)
    (hroom : hist.length < taken + c) : Holds c M slot r ((w + 1) % M) (hist ++ [a]) taken := by
  have hw : w % c = hist.length % c := by rw [h.w, Nat.mod_mod_of_dvd _ h.dvd]
  refine ⟨h.dvd, h.lt, ?_, h.r, ?_, ?_, fun k b hk hkt => ?_⟩
  · rw [h.w, Nat.mod_add_mod, length_append, length_singleton]
  · rw [length_append]
    exact h.le.trans (Nat.le_add_right _ _)
  · rw [length_append, length_singleton]
    omega
  · rcases lt_or_ge k hist.length with hlt | hge
    · rw [getElem?_append_left hlt] at hk
      exact h.slot k b hk hkt
    rw [getElem?_append_right hge] at hk
    obtain ⟨hzero, hb⟩ := List.getElem?_eq_some_iff.mp hk
    have hkeq : k = hist.length := by
      rw [length_singleton] at hzero
      omega
    rw [hkeq, ← hw, ha]
    simpa [hkeq] using hb

/-- **An element is put in.** -/
theorem put (a : α) (hroom : hist.length < taken + c) :
    Holds c M (update slot (w % c) a) r ((w + 1) % M) (hist ++ [a]) taken :=
  (h.write a hroom).push (update_self _ _ _) hroom

/-- **An element is taken out**, the oldest one. -/
theorem take (hne : taken < hist.length) :
    hist[taken]? = some (slot (r % c)) ∧ Holds c M slot ((r + 1) % M) w hist (taken + 1) := by
  have hr : r % c = taken % c := by rw [h.r, Nat.mod_mod_of_dvd _ h.dvd]
  refine ⟨?_, h.dvd, h.lt, h.w, ?_, hne, ?_, fun k a hk hkt => h.slot k a hk (by omega)⟩
  · rw [hr, h.slot taken _ (getElem?_eq_getElem hne) le_rfl, getElem?_eq_getElem hne]
  · rw [h.r, Nat.mod_add_mod]
  · have := h.cap
    omega

end

/-- **The last element is taken back.** -/
theorem pop {a : α} (h : Holds c M slot r w (hist ++ [a]) taken) (hne : taken ≤ hist.length) :
    slot ((w + (M - 1)) % M % c) = a ∧ Holds c M slot r ((w + (M - 1)) % M) hist taken := by
  have hM : 0 < M := Nat.zero_lt_of_lt h.lt
  have hw : (w + (M - 1)) % M = hist.length % M := by
    rw [h.w, length_append, length_singleton, Nat.mod_add_mod, add_assoc, Nat.add_sub_cancel' hM,
      Nat.add_mod_right]
  refine ⟨?_, h.dvd, h.lt, hw, h.r, hne, ?_, fun k b hk hkt => h.slot k b ?_ hkt⟩
  · rw [hw, Nat.mod_mod_of_dvd _ h.dvd]
    exact h.slot hist.length a (by simp) hne
  · have := h.cap
    rw [length_append] at this
    omega
  · rw [List.getElem?_append_left (List.getElem?_eq_some_iff.mp hk).1]
    exact hk

end Holds

/-- A new queue. -/
theorem Holds.new {c M : Nat} (hdvd : c ∣ M) (hlt : c < M) (slot : Nat → α) : Holds c M slot 0 0 [] 0 :=
  ⟨hdvd, hlt, by simp, by simp, le_rfl, Nat.zero_le _, fun k a hk => by simp at hk⟩

end Xv6.Fifo
