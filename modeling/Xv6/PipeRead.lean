/-
Xv6/PipeRead.lean

What `piperead` takes out of a pipe, and what it delivers.

`pi->nread` is incremented before `copyout` is tried, so a byte that cannot be stored
is gone.  `piperead` is one call of the function, from the moment on when it does not
have to sleep, on a pipe in any state; `run_copyLoop` says that the machine of Pipe.lean
does the same, round by round.  A call takes out what it returns exactly if all
the bytes that it looks at can be stored (`piperead_exact`).
-/
import Xv6.PipeFifo

namespace Xv6.Pipes

open List
open Sched (Pipe PIPESIZE)

/-! ### One call -/

/-- The bytes in the pipe, from the oldest on. -/
def unread (x : Pipe) : List UInt8 :=
  (range (x.nwrite - x.nread).toNat).map fun k => x.data ((x.nread + UInt32.ofNat k).toNat % PIPESIZE)

/-- The second loop of `piperead`, with `k` rounds left: the pipe afterwards and the bytes stored. -/
def copyLoop (dst : Nat → Bool) : Nat → Pipe → Nat → Pipe × List UInt8
  | 0, x, _ => (x, [])
  | k + 1, x, i =>
    if empty x then (x, [])
    else
      let ch := x.data (x.nread.toNat % PIPESIZE)
      let x := { x with nread := x.nread + 1 }
      if dst i then
        let r := copyLoop dst k x (i + 1)
        (r.1, ch :: r.2)
      else (x, [])

/-- `piperead`: the pipe afterwards, the bytes stored from `addr` on and what is returned; `none` if it sleeps. -/
def piperead (x : Pipe) (killed : Bool) (dst : Nat → Bool) (m : Int) : Option (Pipe × List UInt8 × Int) :=
  if empty x ∧ x.writeopen = true then
    if killed then some (x, [], -1) else none
  else
    let r := copyLoop dst m.toNat x 0
    some (r.1, r.2, r.2.length)

/-- What is returned has been stored and taken out, no more and no less. -/
def Exact (x : Pipe) (r : Pipe × List UInt8 × Int) : Prop :=
  (0 ≤ r.2.2 → r.2.1 = (unread x).take r.2.2.toNat ∧ unread r.1 = (unread x).drop r.2.2.toNat) ∧
    (r.2.2 = -1 → r.1 = x)

section Call

variable {x : Pipe} {dst : Nat → Bool} {k i : Nat}

theorem unread_of_empty (h : empty x) : unread x = [] := by
  rw [unread, show x.nread = x.nwrite from h, UInt32.sub_self]
  rfl

theorem unread_cons (h : ¬ empty x) :
    unread x = x.data (x.nread.toNat % PIPESIZE) :: unread { x with nread := x.nread + 1 } := by
  have hcount : (x.nwrite - x.nread).toNat = (x.nwrite - (x.nread + 1)).toNat + 1 := by
    have hne : x.nread.toNat ≠ x.nwrite.toNat := fun hz => h (UInt32.toNat_inj.mp hz)
    have hr := x.nread.toNat_lt
    have hw := x.nwrite.toNat_lt
    rw [UInt32.toNat_sub, UInt32.toNat_sub, UInt32.toNat_add, UInt32.toNat_one]
    omega
  rw [unread, hcount, range_succ_eq_map, map_cons, map_map]
  refine congrArg₂ _ ?_ (map_congr_left fun k _ => ?_)
  · simp
  · simp [add_comm k 1, add_assoc]

/-- All that the loop looks at can be stored. -/
theorem copyLoop_lands (h : ∀ j, j < k → j < (unread x).length → dst (i + j) = true) :
    (copyLoop dst k x i).2 = (unread x).take k ∧ unread (copyLoop dst k x i).1 = (unread x).drop k := by
  induction k generalizing x i with
  | zero => exact ⟨rfl, rfl⟩
  | succ k ih =>
    rw [copyLoop]
    by_cases hx : empty x
    · rw [if_pos hx, unread_of_empty hx]
      exact ⟨rfl, rfl⟩
    rw [if_neg hx]
    have hcons := unread_cons hx
    rw [hcons] at h ⊢
    have hi : dst i = true := h 0 (Nat.succ_pos k) (Nat.succ_pos _)
    obtain ⟨h₁, h₂⟩ := ih (i := i + 1) fun j hj hlen => by
      rw [add_right_comm]
      exact h (j + 1) (Nat.succ_lt_succ hj) (Nat.succ_lt_succ hlen)
    rw [if_pos hi]
    exact ⟨congrArg _ h₁, h₂⟩

/-- A byte that cannot be stored is lost. -/
theorem copyLoop_loses {j : Nat} (hj : j < k) (hlen : j < (unread x).length) (h : dst (i + j) = false) :
    (copyLoop dst k x i).2.length + (unread (copyLoop dst k x i).1).length + 1 = (unread x).length := by
  induction k generalizing x i j with
  | zero => cases hj
  | succ k ih =>
    rw [copyLoop]
    by_cases hx : empty x
    · rw [unread_of_empty hx] at hlen
      cases hlen
    have hcons := unread_cons hx
    rw [if_neg hx, hcons, length_cons]
    rw [hcons, length_cons] at hlen
    by_cases hi : dst i = true
    · rw [if_pos hi]
      obtain ⟨j, rfl⟩ : ∃ j', j = j' + 1 := Nat.exists_eq_succ_of_ne_zero fun hz => by
        rw [hz] at h
        cases hi.symm.trans h
      rw [← add_assoc, add_right_comm] at h
      have hrest := ih (Nat.lt_of_succ_lt_succ hj) (Nat.lt_of_succ_lt_succ hlen) h
      simp only [length_cons]
      omega
    · rw [if_neg hi]
      simp

end Call

/-! ### The machine -/

section Machine

variable {n : Nat} {s s' : Sys n} {p : Fin n}

/-- The byte that a step stores for a reader. -/
def landed (s : Sys n) (a : Act n) (_ : Sys n) : Option UInt8 :=
  match a with
  | .step p =>
    match s.pc p with
    | .copy dst m i =>
      if (i : Int) < m ∧ ¬ empty s.pipe ∧ dst i = true then some (s.pipe.data (s.pipe.nread.toNat % PIPESIZE)) else none
    | _ => none
  | _ => none

/-- The byte that a reader is to take out next can be stored. -/
def Lands (s : Sys n) (a : Act n) : Prop :=
  ∀ p dst m i, a = .step p → s.pc p = .copy dst m i → (i : Int) < m → ¬ empty s.pipe → dst i = true

theorem PStep.outs (h : PStep s p s') (hno : ∀ dst m i, s.pc p ≠ .copy dst m i) : s'.outs = s.outs := by
  cases h with
  | take dst m i pc hpc => exact absurd hpc (hno dst m i)
  | _ => rfl

theorem step_outs {a : Act n} (h : step s a = .ok s') (hl : Lands s a) :
    s'.outs = s.outs ++ (landed s a s').toList := by
  cases a with
  | step p =>
    rw [landed]
    split
    · next dst m i hpc =>
      rw [step, advance, hpc] at h
      obtain rfl := Outcome.ok.inj h
      rw [copyRound]
      by_cases hi : (i : Int) < m
      · by_cases hx : empty s.pipe
        · simp [hx]
        · simp [hi, hx, hl p dst m i rfl hpc hi hx]
      · simp [hi]
    · next hno => simpa using (pstep_advance h).outs hno
  | kill p =>
    rw [step] at h
    split at h <;> cases h
    simp [landed]
  | _ =>
    rw [step] at h
    split at h <;> cases h
    simp [landed]

/-- What is delivered is all that is taken out, as long as it can be stored. -/
theorem outs_of_lands {acts : List (Act n)} (h : Machine.outcome step s acts = .ok s')
    (hl : Machine.Along step Lands s acts) : s'.outs = s.outs ++ Machine.trace step landed s acts := by
  induction acts generalizing s with
  | nil =>
    obtain rfl := Outcome.ok.inj h
    rw [Machine.trace, append_nil]
  | cons a acts ih =>
    rw [Machine.outcome] at h
    rw [Machine.Along] at hl
    rw [Machine.trace]
    rcases ha : step s a with s₁ | - | msg <;> rw [ha] at h hl
    · rw [ih h hl.2, step_outs ha hl.1, append_assoc]
    · cases h
    · cases h

end Machine

/-! ### No byte is lost -/

/-- **`piperead` takes out what it returns exactly if all bytes that it looks at can be stored**, and in a run
in which they can, the bytes delivered are the first of those written. -/
theorem piperead_exact (x : Pipe) (killed : Bool) (dst : Nat → Bool) (m : Int) {n : Nat} (data : Nat → UInt8)
    (acts : List (Act n)) :
    (∀ r, piperead x killed dst m = some r →
      (Exact x r ↔ ∀ k : Nat, k < m → k < (unread x).length → dst k = true)) ∧
    ∀ s, Machine.outcome step (pipealloc data) acts = .ok s → Machine.Along step Lands (pipealloc data) acts →
      Machine.trace step landed (pipealloc data) acts <+: s.ins.map In.byte := by
  refine ⟨fun r hr => ?_, fun s hs hl => ?_⟩
  · rw [piperead] at hr
    split at hr
    · next hx =>
      split at hr
      · obtain rfl := Option.some.inj hr
        rw [unread_of_empty hx.1]
        exact iff_of_true ⟨fun h => absurd (show (0 : Int) ≤ -1 from h) (by decide), fun _ => rfl⟩ nofun
      · cases hr
    · obtain rfl := Option.some.inj hr
      have hlt : ∀ k : Nat, k < m.toNat ↔ (k : Int) < m := fun k => by omega
      constructor
      · intro hex k hk hlen
        by_contra hdst
        have hlose := copyLoop_loses ((hlt k).mpr hk) hlen (i := 0) (by simpa using hdst)
        have hdrop := congrArg length (hex.1 (Int.natCast_nonneg _)).2
        simp only [Int.toNat_natCast, length_drop] at hdrop
        omega
      · intro h
        obtain ⟨h₁, h₂⟩ : (copyLoop dst m.toNat x 0).2 = (unread x).take m.toNat ∧
            unread (copyLoop dst m.toNat x 0).1 = (unread x).drop m.toNat :=
          copyLoop_lands fun j hj hlen => by
            rw [zero_add]
            exact h j ((hlt j).mp hj) hlen
        refine ⟨fun _ => ?_, fun hneg => absurd hneg (by dsimp only; omega)⟩
        simp only [Int.toNat_natCast, h₁, h₂, length_take]
        exact ⟨take_eq_take_min, drop_eq_drop_min⟩
  · have hrun := Machine.run_of_outcome hs
    have hinv : Inv s := hrun.invariant (fun _ _ _ h hs => h.step hs) (Inv.new data)
    have houts := outs_of_lands hs hl
    rw [show (pipealloc data : Sys n).outs = [] from rfl, nil_append] at houts
    rw [← houts]
    exact hinv.queue.2

/-- One byte is read to a place that is mapped. -/
theorem piperead_exact_one : ∃ r, piperead ⟨fun _ => 7, 0, 1, true, true⟩ false (fun _ => true) 1 = some r ∧
    Exact ⟨fun _ => 7, 0, 1, true, true⟩ r :=
  ⟨_, rfl, ((piperead_exact (n := 0) _ false (fun _ => true) 1 (fun _ => 0) []).1 _ rfl).mpr fun _ _ _ => rfl⟩

/-- One byte is read to a place that is not mapped: nothing is returned, and the pipe is empty. -/
theorem piperead_loses_byte : ∃ r, piperead ⟨fun _ => 7, 0, 1, true, true⟩ false (fun _ => false) 1 = some r ∧
    ¬ Exact ⟨fun _ => 7, 0, 1, true, true⟩ r :=
  ⟨_, rfl, fun h => absurd (h.1 (by decide)).2 (by decide)⟩

end Xv6.Pipes
