/-
Xv6/Log.lean

`struct log` of kernel/log.c and its critical sections.

Each function below is the part of `begin_op`, `log_write` or `end_op` that
runs while `log.lock` is held: what it does to the fields of `log` as one
atomic step.  The code around them (sleeping, the buffer's pin, `commit`) is
in the machines that use them, LogOps.lean and Bcache.lean.
-/
import Xv6.LogHeader
import Xv6.Lib.Machine

namespace Xv6

/-- `struct log`, less its lock. -/
structure Log where
  /-- First block of the log area. -/
  start : Nat
  /-- Number of blocks of the log area, the header included. -/
  size : Nat
  /-- How many FS system calls are executing. -/
  outstanding : Int
  /-- In `commit`, please wait. -/
  committing : Bool
  /-- The in-memory header. -/
  lh : LogHeader

/-- The header with one block number more. -/
def LogHeader.push (lh : LogHeader) (b : Nat) (h : lh.n < LOGSIZE) : LogHeader where
  blocks := lh.blocks ++ [b]
  fits := by rw [List.length_append]; exact h

namespace Log

/-- The log after `initlog` and recovery: nothing logged, nobody in an
operation. -/
def boot (start size : Nat) : Log where
  start := start
  size := size
  outstanding := 0
  committing := false
  lh := LogHeader.empty

/-- One round of the loop of `begin_op`: the operation is admitted, or has to
sleep because of a commit or because it might exhaust log space. -/
def tryBegin (lg : Log) : Option Log :=
  if lg.committing then none
  else if lg.lh.n + (lg.outstanding + 1) * MAXOPBLOCKS > LOGSIZE then none
  else some { lg with outstanding := lg.outstanding + 1 }

/-- `log_write(b)`: record the block number, unless it is already there (log
absorption).  The result says whether it is new, so that the buffer is to be
pinned. -/
def write (lg : Log) (b : Nat) : Outcome (Log × Bool) :=
  if h : lg.lh.n ≥ LOGSIZE ∨ (lg.lh.n : Int) ≥ lg.size - 1 then .panic "too big a transaction"
  else if lg.outstanding < 1 then .panic "log_write outside of trans"
  else if b ∈ lg.lh.blocks then .ok (lg, false)
  else .ok ({ lg with lh := lg.lh.push b (by omega) }, true)

/-- The first critical section of `end_op`.  The result says whether this was
the last outstanding operation, which then has to commit. -/
def endOp (lg : Log) : Outcome (Log × Bool) :=
  if lg.committing then .panic "log.committing"
  else if lg.outstanding - 1 = 0 then
    .ok ({ lg with outstanding := lg.outstanding - 1, committing := true }, true)
  else .ok ({ lg with outstanding := lg.outstanding - 1 }, false)

/-- The second critical section of `end_op`, after `commit`. -/
def endCommit (lg : Log) : Log := { lg with committing := false }

/-- `log.lh.n = 0`. -/
def erase (lg : Log) : Log := { lg with lh := LogHeader.empty }

/-! ### What the critical sections do -/

variable {lg lg' : Log} {b : Nat} {f : Bool} {msg : String}

theorem tryBegin_some (h : lg.tryBegin = some lg') :
    lg.committing = false ∧ lg.lh.n + (lg.outstanding + 1) * MAXOPBLOCKS ≤ LOGSIZE ∧
      lg' = { lg with outstanding := lg.outstanding + 1 } := by
  unfold tryBegin at h
  split_ifs at h with hc hn
  exact ⟨by simpa using hc, by omega, (Option.some.inj h).symm⟩

theorem write_ok (h : lg.write b = .ok (lg', f)) :
    lg.lh.n < LOGSIZE ∧ (lg.lh.n : Int) < lg.size - 1 ∧ 1 ≤ lg.outstanding ∧
      ((b ∈ lg.lh.blocks ∧ lg' = lg ∧ f = false) ∨
        (b ∉ lg.lh.blocks ∧ ∃ hn, lg' = { lg with lh := lg.lh.push b hn } ∧ f = true)) := by
  unfold write at h
  split_ifs at h with hn ho hb
  · cases h
    exact ⟨by omega, by omega, by omega, Or.inl ⟨hb, rfl, rfl⟩⟩
  · cases h
    exact ⟨by omega, by omega, by omega, Or.inr ⟨hb, by omega, rfl, rfl⟩⟩

theorem write_tooBig_iff :
    lg.write b = .panic "too big a transaction" ↔
      lg.lh.n ≥ LOGSIZE ∨ (lg.lh.n : Int) ≥ lg.size - 1 := by
  unfold write
  by_cases hn : lg.lh.n ≥ LOGSIZE ∨ (lg.lh.n : Int) ≥ lg.size - 1
  · rw [dif_pos hn]
    exact ⟨fun _ => hn, fun _ => rfl⟩
  refine ⟨fun h => ?_, fun h => absurd h hn⟩
  split_ifs at h
  simp at h

/-- The panics of `log_write`. -/
theorem write_panic (h : lg.write b = .panic msg) :
    (msg = "too big a transaction" ∧ (lg.lh.n ≥ LOGSIZE ∨ (lg.lh.n : Int) ≥ lg.size - 1)) ∨
      (msg = "log_write outside of trans" ∧ lg.outstanding < 1) := by
  unfold write at h
  split_ifs at h with hn ho hb
  · exact Or.inl ⟨(Outcome.panic.inj h).symm, hn⟩
  · exact Or.inr ⟨(Outcome.panic.inj h).symm, ho⟩

theorem endOp_ok (h : lg.endOp = .ok (lg', f)) :
    lg.committing = false ∧
      ((lg.outstanding = 1 ∧ f = true ∧ lg' = { lg with outstanding := 0, committing := true }) ∨
        (lg.outstanding ≠ 1 ∧ f = false ∧ lg' = { lg with outstanding := lg.outstanding - 1 })) := by
  unfold endOp at h
  split_ifs at h with hc ho
  · cases h
    exact ⟨by simpa using hc, Or.inl ⟨by omega, rfl, by rw [ho]⟩⟩
  · cases h
    exact ⟨by simpa using hc, Or.inr ⟨by omega, rfl, rfl⟩⟩

/-- The panic of `end_op`. -/
theorem endOp_panic (h : lg.endOp = .panic msg) : msg = "log.committing" ∧ lg.committing = true := by
  unfold endOp at h
  split_ifs at h with hc ho
  exact ⟨(Outcome.panic.inj h).symm, hc⟩

end Log

end Xv6
