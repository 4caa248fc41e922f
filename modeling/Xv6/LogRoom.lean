/-
Xv6/LogRoom.lean

How much room the log has.

`begin_op` admits an operation when the blocks already logged and MAXOPBLOCKS
for each outstanding operation fit in LOGSIZE.  `mkfs` makes the log area
LOGSIZE blocks long, header included, and `log_write` tests for `log.size - 1`
before it looks for a block that is already there.  The last of the LOGSIZE
blocks that `begin_op` has promised therefore cannot be logged.

`too_big_iff` says exactly which schedules stop with "too big a transaction"
on such a disk: those with a `log_write` while LOGSIZE - 1 distinct blocks are
logged in the open transaction.  `fullThree` is a schedule in which three
operations log ten blocks each and the last `log_write` panics.
-/
import Xv6.LogOps

namespace Xv6.LogOps

section Machine

variable {P : Type} [DecidableEq P]

/-- The distinct blocks logged since the last header was written. -/
def loggedNow (s : LogSys P) : List Nat :=
  ((s.hist.filter fun e => e.txn = s.commits.length).map Entry.block).dedup

/-- The open transaction has room for one `log_write` more. -/
def Room (s : LogSys P) : Act P → Prop
  | .logWrite p _ => (s.pc p).isActive = true → (loggedNow s).length < LOGSIZE - 1
  | _ => True

/-- The distinct blocks that a process has logged in its operation. -/
def Pc.mine : Pc → List Nat
  | .active _ mine => mine
  | _ => []

/-- No operation logs more than MAXOPBLOCKS distinct blocks. -/
def Within (s : LogSys P) : Act P → Prop
  | .logWrite p b => b ∈ (s.pc p).mine ∨ (s.pc p).mine.length < MAXOPBLOCKS
  | _ => True

instance Within.decidable (s : LogSys P) : ∀ a : Act P, Decidable (Within s a)
  | .logWrite p b =>
    inferInstanceAs (Decidable (b ∈ (s.pc p).mine ∨ (s.pc p).mine.length < MAXOPBLOCKS))
  | .beginOp _ | .tryBegin _ | .wake _ | .endOp _ | .commit _ | .endCommit _ => isTrue trivial

variable {s : LogSys P} {b : Nat}

omit [DecidableEq P] in
theorem mem_loggedNow : b ∈ loggedNow s ↔ ∃ e ∈ s.hist, e.txn = s.commits.length ∧ e.block = b := by
  simp only [loggedNow, List.mem_dedup, List.mem_map, List.mem_filter, decide_eq_true_eq]
  exact ⟨fun ⟨e, ⟨he, ht⟩, hb⟩ => ⟨e, he, ht, hb⟩, fun ⟨e, he, ht, hb⟩ => ⟨e, ⟨he, ht⟩, hb⟩⟩

variable {p : P}

theorem step_logWrite_panic {msg : String} (hp : (s.pc p).isActive = true) (h : s.log.write b = .panic msg) :
    step s (.logWrite p b) = .panic msg := by
  rcases hc : s.pc p with _ | _ | _ | ⟨op, mine⟩ | _ | _ | _ | _ | _ | _ | _ <;> rw [hc] at hp
  case active => simp only [step, hc, h]
  all_goals cases hp

variable [Fintype P]

omit [DecidableEq P] in
/-- During an operation the in-memory header has one entry for each block logged
since the last header was written. -/
theorem LogInv.n_eq (h : LogInv s) (hp : (s.pc p).isActive = true) : s.log.lh.n = (loggedNow s).length := by
  have hnl : ¬ Late s := by
    rintro ⟨q, hq⟩
    have hcm := h.phases.not_committer hp q
    rw [isCommitter_of_isLate hq] at hcm
    cases hcm
  have hmem : ∀ b, b ∈ s.log.lh.blocks ↔ b ∈ loggedNow s := fun b =>
    (h.history.header hnl b).trans mem_loggedNow.symm
  exact ((List.perm_ext_iff_of_nodup h.history.nodup (List.nodup_dedup _)).mpr hmem).length_eq

/-- On the log that `mkfs` makes, a step panics exactly when there is no room. -/
theorem step_tooBig_iff (h : LogInv s) (hsize : s.log.size = LOGSIZE) (a : Act P) :
    step s a ≠ .panic "too big a transaction" ↔ Room s a := by
  constructor
  · intro hne
    cases a with
    | logWrite p b =>
      intro hp
      rw [← h.n_eq hp]
      by_contra hn
      refine hne (step_logWrite_panic hp (Log.write_tooBig_iff.mpr (Or.inr ?_)))
      omega
    | _ => trivial
  · intro hroom hpanic
    obtain ⟨-, p, b, rfl, hp, hn⟩ := step_panic_tooBig h hpanic
    have hlt : (loggedNow s).length < LOGSIZE - 1 := hroom hp
    rw [← h.n_eq hp] at hlt
    omega

/-- **When `log_write` runs out of room.**  On a disk made by `mkfs`, a schedule
avoids the panic "too big a transaction" exactly when each of its `log_write`s
finds fewer than LOGSIZE - 1 distinct blocks logged in the open transaction. -/
theorem too_big_iff (start : Nat) (as : List (Act P)) :
    Machine.outcome step (boot start LOGSIZE) as ≠ .panic "too big a transaction" ↔
      Machine.Along step Room (boot start LOGSIZE) as := by
  refine Machine.outcome_ne_panic_iff (I := fun s => LogInv s ∧ s.log.size = LOGSIZE) ?_ ?_ ?_ as
  · rintro s a s' ⟨hi, hsize⟩ hs
    exact ⟨logInv_step hi hs, (step_area hs).2.trans hsize⟩
  · rintro s a ⟨hi, hsize⟩
    exact step_tooBig_iff hi hsize a
  · exact ⟨logInv_run (Machine.Run.nil _), rfl⟩

end Machine

/-- Three operations, all admitted, log ten distinct blocks each. -/
def fullThree : List (Act (Fin 3)) :=
  [.beginOp 0, .tryBegin 0, .beginOp 1, .tryBegin 1, .beginOp 2, .tryBegin 2] ++
    (List.range MAXOPBLOCKS).map (fun i => .logWrite 0 (100 + i)) ++
    (List.range MAXOPBLOCKS).map (fun i => .logWrite 1 (110 + i)) ++
    (List.range MAXOPBLOCKS).map (fun i => .logWrite 2 (120 + i))

/-- No operation of `fullThree` logs more than MAXOPBLOCKS blocks, and the last
`log_write` panics. -/
theorem fullThree_panics :
    Machine.Along step Within (boot 2 LOGSIZE) fullThree ∧
      Machine.outcome step (boot 2 LOGSIZE) fullThree = .panic "too big a transaction" := by
  refine ⟨by decide, rfl⟩

end Xv6.LogOps
