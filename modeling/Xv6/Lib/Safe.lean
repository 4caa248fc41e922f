/-
Xv6/Lib/Safe.lean

Programs that may panic, and what they guarantee otherwise.

A program is a value of `Except String α`: a result, or the message of a
panic.  `Safe E r Q` says that `r` gives a result in `Q` or panics with a
message in `E`; every other panic is excluded.  The rules follow the shape of
the program: `bind`, and `foldlM_range` for a counting loop with an invariant.
-/
import Mathlib.Algebra.BigOperators.Fin
import Mathlib.Data.Fintype.BigOperators
import Mathlib.Tactic

namespace Xv6

variable {α β σ : Type} {E : String → Prop}

/-- The program gives a result in `Q`, or panics with a message in `E`. -/
def Safe (E : String → Prop) (r : Except String α) (Q : α → Prop) : Prop :=
  match r with
  | .ok a => Q a
  | .error msg => E msg

namespace Safe

variable {Q : α → Prop} {a : α}

theorem ok (h : Q a) : Safe E (.ok a) Q := h

theorem error {msg : String} (h : E msg) : Safe E (.error msg) Q := h

/-- Nothing is asked. -/
theorem any (r : Except String α) : Safe (fun _ => True) r fun _ => True := by
  rcases r with msg | a <;> trivial

variable {r : Except String α}

section

variable (h : Safe E r Q)

include h

theorem of_ok (hr : r = .ok a) : Q a := by
  rw [hr] at h
  exact h

theorem mono {Q' : α → Prop} (hQ : ∀ a, Q a → Q' a) : Safe E r Q' := by
  rcases r with msg | a
  · exact h
  · exact hQ a h

theorem weaken {E' : String → Prop} (hE : ∀ msg, E msg → E' msg) : Safe E' r Q := by
  rcases r with msg | a
  · exact hE msg h
  · exact h

/-- A program that does not panic in an allowed way gives a result. -/
theorem exists_ok (hne : ∀ msg, E msg → r ≠ .error msg) : ∃ a, r = .ok a ∧ Q a := by
  rcases r with msg | a
  · exact absurd rfl (hne msg h)
  · exact ⟨a, rfl, h⟩

/-- **Sequencing.** -/
theorem bind {k : α → Except String β} {R : β → Prop} (hk : ∀ a, Q a → Safe E (k a) R) : Safe E (r >>= k) R := by
  rcases r with msg | a
  · exact h
  · exact hk a h

end

/-- **Counting loops.**  `I k` is what holds before iteration `k`. -/
theorem foldlM_range {f : σ → Nat → Except String σ} {I : Nat → σ → Prop} {n : Nat} {s : σ}
    (hstep : ∀ k s, k < n → I k s → Safe E (f s k) (I (k + 1))) (h0 : I 0 s) :
    Safe E ((List.range n).foldlM f s) (I n) := by
  induction n with
  | zero => exact h0
  | succ n ih =>
    rw [List.range_succ, List.foldlM_append]
    refine (ih fun k s hk => hstep k s (by omega)).bind fun s' hs' => ?_
    refine (hstep n s' (Nat.lt_succ_self n) hs').bind fun s'' hs'' => ?_
    exact hs''

end Safe

end Xv6
