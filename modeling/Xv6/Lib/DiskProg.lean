/-
Xv6/Lib/DiskProg.lean

Programs over a disk, and what a crash leaves of them.

A `DiskProg A V α` reads and writes cells `A` holding values `V` and returns
an `α`.  Its run on a disk is a result together with the list of its writes in
program order (`exec`); the disk it leaves is that list applied
(`applyWrites`).  Because a single write is atomic and writes reach the disk in
program order, the disks a crash can leave are exactly the applications of the
prefixes of the list (`crashAt`).

`Recovers R d d'` is recovery under repeated crashes: a program of `R` is
started, interrupted after any number of its writes, one of `R` is started
again, and so on until one completes.
-/
import Mathlib.Algebra.BigOperators.Fin
import Mathlib.Data.Fintype.BigOperators
import Mathlib.Tactic

namespace Xv6

open Function

/-- A program that reads and writes the cells of a disk. -/
inductive DiskProg (A V : Type) (α : Type) : Type
  | ret (x : α) : DiskProg A V α
  | read (a : A) (k : V → DiskProg A V α) : DiskProg A V α
  | write (a : A) (v : V) (p : DiskProg A V α) : DiskProg A V α

/-- A list of writes, oldest first. -/
abbrev Writes (A V : Type) : Type := List (A × V)

section Writes

variable {A V : Type} [DecidableEq A]

/-- Apply writes in order. -/
def applyWrites (ws : Writes A V) (d : A → V) : A → V :=
  ws.foldl (fun d w => update d w.1 w.2) d

@[simp] theorem applyWrites_nil (d : A → V) : applyWrites [] d = d := rfl

@[simp] theorem applyWrites_cons (w : A × V) (ws : Writes A V) (d : A → V) :
    applyWrites (w :: ws) d = applyWrites ws (update d w.1 w.2) := rfl

@[simp] theorem applyWrites_append (ws vs : Writes A V) (d : A → V) :
    applyWrites (ws ++ vs) d = applyWrites vs (applyWrites ws d) := by
  simp [applyWrites, List.foldl_append]

variable {ws : Writes A V} {d : A → V} {a : A}

/-- A cell no write goes to is unchanged. -/
theorem applyWrites_of_notMem
    (h : a ∉ ws.map Prod.fst) : applyWrites ws d a = d a := by
  induction ws generalizing d with
  | nil => rfl
  | cons w ws ih =>
    simp only [List.map_cons, List.mem_cons, not_or] at h
    rw [applyWrites_cons, ih h.2, update_of_ne h.1]

/-- With no cell written twice, a written cell holds what was written. -/
theorem applyWrites_of_mem {v : V} (hnd : (ws.map Prod.fst).Nodup) (h : (a, v) ∈ ws) : applyWrites ws d a = v := by
  induction ws generalizing d with
  | nil => cases h
  | cons w ws ih =>
    simp only [List.map_cons, List.nodup_cons] at hnd
    rcases List.mem_cons.mp h with rfl | h
    · rw [applyWrites_cons, applyWrites_of_notMem hnd.1, update_self]
    · exact ih hnd.2 h

/-- The outcome of the writes at a cell does not depend on a disk that is
changed only at cells they write. -/
theorem applyWrites_congr {e : A → V}
    (h : a ∉ ws.map Prod.fst → d a = e a) : applyWrites ws d a = applyWrites ws e a := by
  induction ws generalizing d e with
  | nil => exact h (by simp)
  | cons w ws ih =>
    rw [applyWrites_cons, applyWrites_cons]
    refine ih fun hn => ?_
    by_cases hw : a = w.1
    · simp [hw]
    · rw [update_of_ne hw, update_of_ne hw]
      exact h (by simp [hw, hn])

end Writes

namespace DiskProg

variable {A V : Type} {α β : Type}

/-- Sequencing. -/
def bind : DiskProg A V α → (α → DiskProg A V β) → DiskProg A V β
  | ret x, f => f x
  | read a k, f => read a fun v => (k v).bind f
  | write a v p, f => write a v (p.bind f)

instance : Monad (DiskProg A V) where
  pure := ret
  bind := bind

variable [DecidableEq A]

/-- Run a program: its result and its writes, in order. -/
def exec : DiskProg A V α → (A → V) → α × Writes A V
  | ret x, _ => (x, [])
  | read a k, d => (k (d a)).exec d
  | write a v p, d =>
    let r := p.exec (update d a v)
    (r.1, (a, v) :: r.2)

/-- The result of a run. -/
def result (p : DiskProg A V α) (d : A → V) : α := (p.exec d).1

/-- The writes of a run, in program order. -/
def writes (p : DiskProg A V α) (d : A → V) : Writes A V := (p.exec d).2

/-- The disk a completed run leaves. -/
def final (p : DiskProg A V α) (d : A → V) : A → V := applyWrites (p.writes d) d

/-- The disk a run leaves that stops after its first `k` writes. -/
def crashAt (p : DiskProg A V α) (d : A → V) (k : Nat) : A → V :=
  applyWrites ((p.writes d).take k) d

@[simp] theorem exec_ret (x : α) (d : A → V) : (ret x : DiskProg A V α).exec d = (x, []) := rfl

theorem exec_bind (p : DiskProg A V α) (f : α → DiskProg A V β) (d : A → V) :
    (p.bind f).exec d
      = (((f (p.result d)).exec (p.final d)).1,
          p.writes d ++ ((f (p.result d)).exec (p.final d)).2) := by
  induction p generalizing d with
  | ret x => simp [bind, result, final, writes, exec]
  | read a k ih => exact ih (d a) d
  | write a v p ih =>
    simp only [bind, exec, ih]
    simp [result, final, writes, exec]

/-- Interrupted recovery: a program of `R` is started on `d`, possibly stopped
after some of its writes and one of `R` started again, any number of times,
until one completes and leaves `d'`. -/
inductive Recovers (R : Set (DiskProg A V α)) : (A → V) → (A → V) → Prop
  | complete {r : DiskProg A V α} (hr : r ∈ R) (d : A → V) : Recovers R d (r.final d)
  | again {r : DiskProg A V α} (hr : r ∈ R) (d : A → V) (k : Nat) {d' : A → V} :
      Recovers R (r.crashAt d k) d' → Recovers R d d'

/-- **Recovery invariant.**  A property of disks that every crash of every
recovery program preserves, and from which completing one establishes `Q`,
gives `Q` however often recovery is interrupted. -/
theorem Recovers.of_invariant {R : Set (DiskProg A V α)} {I Q : (A → V) → Prop}
    (hcrash : ∀ r ∈ R, ∀ d k, I d → I (r.crashAt d k))
    (hdone : ∀ r ∈ R, ∀ d, I d → Q (r.final d))
    {d d' : A → V} (h : Recovers R d d') (hd : I d) : Q d' := by
  induction h with
  | complete hr d => exact hdone _ hr d hd
  | again hr d k _ ih => exact ih (hcrash _ hr d k hd)

end DiskProg

end Xv6
