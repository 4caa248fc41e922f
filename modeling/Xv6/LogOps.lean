/-
Xv6/LogOps.lean

Concurrent file system operations and the log.

The machine below has any finite number of processes.  Each calls `begin_op`,
then `log_write` any number of times, then `end_op`; the last `end_op` runs
`commit` without holding `log.lock`.  A step is one critical section of
`log.lock`, or one block of `commit`'s loops, and the steps of the processes
interleave in any order (`step` takes the process as part of its label).

Besides the kernel's state, the machine keeps history: every `log_write` with
its operation and the number of headers written before it (`hist`), and the
block lists of the headers written so far (`commits`).

`LogInv` is the invariant; what one step can do is said once, in `LogStep`.
Main results: operations are never split across transactions
(`ops_in_one_transaction`), and exactly when `log_write` runs out of room
(`too_big_iff`).
-/
import Xv6.Log

namespace Xv6.LogOps

open Function List Outcome

/-! ### The machine -/

/-- Where a process is. -/
inductive Pc
  /-- Not in an operation. -/
  | idle
  /-- In `begin_op`, about to test whether it may go ahead. -/
  | starting
  /-- In `begin_op`, sleeping on `&log`. -/
  | asleep
  /-- Between `begin_op` and `end_op`; `mine` are the blocks logged so far. -/
  | active (op : Nat) (mine : List Nat)
  /-- At the start of `commit`. -/
  | commit
  /-- In `write_log`, at index `tail`. -/
  | writeLog (tail : Nat)
  /-- At the first `write_head`. -/
  | writeHead
  /-- In `install_trans`, at index `tail`. -/
  | install (tail : Nat)
  /-- At `log.lh.n = 0`. -/
  | erase
  /-- At the second `write_head`. -/
  | clearHead
  /-- Back in `end_op`, before its second critical section. -/
  | finish
  deriving DecidableEq

/-- Between `begin_op` and `end_op`. -/
def Pc.isActive : Pc → Bool
  | .active _ _ => true
  | _ => false

/-- In `commit`, or in `end_op` after it. -/
def Pc.isCommitter : Pc → Bool
  | .commit | .writeLog _ | .writeHead | .install _ | .erase | .clearHead | .finish => true
  | _ => false

/-- In `commit`, after the header write. -/
def Pc.isLate : Pc → Bool
  | .install _ | .erase => true
  | _ => false

/-- In `end_op`, after `log.lh.n = 0`. -/
def Pc.isDone : Pc → Bool
  | .clearHead | .finish => true
  | _ => false

variable {c : Pc}

theorem isCommitter_of_isLate (h : c.isLate = true) : c.isCommitter = true := by
  cases c <;> first | rfl | cases h

theorem isCommitter_of_isDone (h : c.isDone = true) : c.isCommitter = true := by
  cases c <;> first | rfl | cases h

theorem isActive_of_isCommitter (h : c.isCommitter = true) : c.isActive = false := by
  cases c <;> first | rfl | cases h

/-- A `log_write` of the past. -/
structure Entry where
  /-- The operation that made it. -/
  op : Nat
  /-- The block number. -/
  block : Nat
  /-- The number of headers written before it. -/
  txn : Nat
  deriving DecidableEq

/-- The state: the log, the processes, and history. -/
structure LogSys (P : Type) where
  log : Log
  pc : P → Pc
  /-- The next operation's number. -/
  nextOp : Nat
  /-- All `log_write`s so far. -/
  hist : List Entry
  /-- The block lists of the headers written so far. -/
  commits : List (List Nat)

/-- The steps of a process. -/
inductive Act (P : Type)
  | beginOp (p : P)
  | tryBegin (p : P)
  | wake (p : P)
  | logWrite (p : P) (b : Nat)
  | endOp (p : P)
  | commit (p : P)
  | endCommit (p : P)

section Machine

variable {P : Type} [DecidableEq P]

/-- Boot: an empty log and idle processes. -/
def boot (start size : Nat) : LogSys P where
  log := Log.boot start size
  pc := fun _ => .idle
  nextOp := 0
  hist := []
  commits := []

/-- `wakeup(&log)`. -/
def wakeup (pc : P → Pc) : P → Pc := fun q => if pc q = .asleep then .starting else pc q

/-- Move process `p` to `c`. -/
def LogSys.goto (s : LogSys P) (p : P) (c : Pc) : LogSys P := { s with pc := update s.pc p c }

/-- One step of `commit` by `p`. -/
def commitStep (s : LogSys P) (p : P) : Outcome (LogSys P) :=
  match s.pc p with
  | .commit => .ok (s.goto p (if s.log.lh.n > 0 then .writeLog 0 else .finish))
  | .writeLog tail => .ok (s.goto p (if tail < s.log.lh.n then .writeLog (tail + 1) else .writeHead))
  | .writeHead => .ok { s.goto p (.install 0) with commits := s.commits ++ [s.log.lh.blocks] }
  | .install tail => .ok (s.goto p (if tail < s.log.lh.n then .install (tail + 1) else .erase))
  | .erase => .ok { s.goto p .clearHead with log := s.log.erase }
  | .clearHead => .ok (s.goto p .finish)
  | _ => .blocked

/-- One step of the system.  A sleeping process is woken by `wakeup`, inside
the steps that call it, or at any time by `kill` (`wake`). -/
def step : Machine (LogSys P) (Act P)
  | s, .beginOp p => if s.pc p = .idle then .ok (s.goto p .starting) else .blocked
  | s, .tryBegin p =>
    if s.pc p = .starting then
      match s.log.tryBegin with
      | some lg => .ok { s.goto p (.active s.nextOp []) with log := lg, nextOp := s.nextOp + 1 }
      | none => .ok (s.goto p .asleep)
    else .blocked
  | s, .wake p => if s.pc p = .asleep then .ok (s.goto p .starting) else .blocked
  | s, .logWrite p b =>
    match s.pc p with
    | .active op mine =>
      match s.log.write b with
      | .ok (lg, _) => .ok
          { s.goto p (.active op (mine.insert b)) with
            log := lg, hist := s.hist ++ [⟨op, b, s.commits.length⟩] }
      | .panic msg => .panic msg
      | .blocked => .blocked
    | _ => .blocked
  | s, .endOp p =>
    match s.pc p with
    | .active _ _ =>
      match s.log.endOp with
      | .ok (lg, true) => .ok { s.goto p .commit with log := lg }
      | .ok (lg, false) => .ok { s with log := lg, pc := wakeup (update s.pc p .idle) }
      | .panic msg => .panic msg
      | .blocked => .blocked
    | _ => .blocked
  | s, .commit p => commitStep s p
  | s, .endCommit p =>
    if s.pc p = .finish then
      .ok { s with log := s.log.endCommit, pc := wakeup (update s.pc p .idle) }
    else .blocked

/-! ### What a step can do -/

/-- The transitions of the system, one constructor for each way a step can be
taken. -/
inductive LogStep (s : LogSys P) : Act P → LogSys P → Prop
  | beginOp {p} (h : s.pc p = .idle) : LogStep s (.beginOp p) (s.goto p .starting)
  | admitted {p} (h : s.pc p = .starting) (hc : s.log.committing = false)
      (hroom : s.log.lh.n + (s.log.outstanding + 1) * MAXOPBLOCKS ≤ LOGSIZE) :
      LogStep s (.tryBegin p)
        { s.goto p (.active s.nextOp []) with
          log := { s.log with outstanding := s.log.outstanding + 1 }, nextOp := s.nextOp + 1 }
  | sleep {p} (h : s.pc p = .starting) : LogStep s (.tryBegin p) (s.goto p .asleep)
  | wake {p} (h : s.pc p = .asleep) : LogStep s (.wake p) (s.goto p .starting)
  | logNew {p b op mine} (h : s.pc p = .active op mine) (hb : b ∉ s.log.lh.blocks)
      (hn : s.log.lh.n < LOGSIZE) (hsize : (s.log.lh.n : Int) < s.log.size - 1) :
      LogStep s (.logWrite p b)
        { s.goto p (.active op (mine.insert b)) with
          log := { s.log with lh := s.log.lh.push b hn },
          hist := s.hist ++ [⟨op, b, s.commits.length⟩] }
  | absorb {p b op mine} (h : s.pc p = .active op mine) (hb : b ∈ s.log.lh.blocks) :
      LogStep s (.logWrite p b)
        { s.goto p (.active op (mine.insert b)) with
          hist := s.hist ++ [⟨op, b, s.commits.length⟩] }
  | endLast {p op mine} (h : s.pc p = .active op mine) (hc : s.log.committing = false)
      (ho : s.log.outstanding = 1) :
      LogStep s (.endOp p)
        { s.goto p .commit with log := { s.log with outstanding := 0, committing := true } }
  | endOther {p op mine} (h : s.pc p = .active op mine) (hc : s.log.committing = false)
      (ho : s.log.outstanding ≠ 1) :
      LogStep s (.endOp p)
        { s with log := { s.log with outstanding := s.log.outstanding - 1 },
                 pc := wakeup (update s.pc p .idle) }
  | move {p c c'} (h : s.pc p = c) (hc : c.isCommitter = true) (hc' : c'.isCommitter = true)
      (hlate : c'.isLate = c.isLate) (hdone : c'.isDone = true → c.isDone = true ∨ s.log.lh.n = 0) :
      LogStep s (.commit p) (s.goto p c')
  | writeHead {p} (h : s.pc p = .writeHead) :
      LogStep s (.commit p)
        { s.goto p (.install 0) with commits := s.commits ++ [s.log.lh.blocks] }
  | erase {p} (h : s.pc p = .erase) :
      LogStep s (.commit p) { s.goto p .clearHead with log := s.log.erase }
  | endCommit {p} (h : s.pc p = .finish) :
      LogStep s (.endCommit p)
        { s with log := s.log.endCommit, pc := wakeup (update s.pc p .idle) }

variable {s s' : LogSys P} {p q : P}

theorem logStep_commit (h : commitStep s p = .ok s') : LogStep s (.commit p) s' := by
  unfold commitStep at h
  split at h
  · rename_i hp
    obtain rfl := ok.inj h
    split_ifs with hn
    · exact .move hp rfl rfl rfl fun hd => by cases hd
    · exact .move hp rfl rfl rfl fun _ => Or.inr (by omega)
  · rename_i tail hp
    obtain rfl := ok.inj h
    split_ifs <;> exact .move hp rfl rfl rfl fun hd => by cases hd
  · rename_i hp
    obtain rfl := ok.inj h
    exact .writeHead hp
  · rename_i tail hp
    obtain rfl := ok.inj h
    split_ifs <;> exact .move hp rfl rfl rfl fun hd => by cases hd
  · rename_i hp
    obtain rfl := ok.inj h
    exact .erase hp
  · rename_i hp
    obtain rfl := ok.inj h
    exact .move hp rfl rfl rfl fun _ => Or.inl rfl
  · cases h

variable {a : Act P}

/-- Every step taken is one of the transitions. -/
theorem logStep_of_step (h : step s a = .ok s') : LogStep s a s' := by
  cases a with
  | beginOp p =>
    simp only [step] at h
    split_ifs at h with hp
    obtain rfl := ok.inj h
    exact .beginOp hp
  | tryBegin p =>
    simp only [step] at h
    split_ifs at h with hp
    rcases ht : s.log.tryBegin with - | lg <;> rw [ht] at h
    · obtain rfl := ok.inj h
      exact .sleep hp
    · obtain rfl := ok.inj h
      obtain ⟨hc, hroom, rfl⟩ := Log.tryBegin_some ht
      exact .admitted hp hc hroom
  | wake p =>
    simp only [step] at h
    split_ifs at h with hp
    obtain rfl := ok.inj h
    exact .wake hp
  | logWrite p b =>
    simp only [step] at h
    split at h
    · rename_i op mine hp
      rcases hw : s.log.write b with ⟨lg, f⟩ | - | msg <;> rw [hw] at h
      · obtain rfl := ok.inj h
        obtain ⟨hn, hsize, -, ⟨hb, rfl, -⟩ | ⟨hb, hn', rfl, -⟩⟩ := Log.write_ok hw
        · exact .absorb hp hb
        · exact .logNew hp hb hn hsize
      · cases h
      · cases h
    · cases h
  | endOp p =>
    simp only [step] at h
    split at h
    · rename_i op mine hp
      rcases hw : s.log.endOp with ⟨lg, f⟩ | - | msg <;> rw [hw] at h
      · obtain ⟨hc, ⟨ho, rfl, rfl⟩ | ⟨ho, rfl, rfl⟩⟩ := Log.endOp_ok hw
        · obtain rfl := ok.inj h
          exact .endLast hp hc ho
        · obtain rfl := ok.inj h
          exact .endOther hp hc ho
      · cases h
      · cases h
    · cases h
  | commit p => exact logStep_commit h
  | endCommit p =>
    simp only [step] at h
    split_ifs at h with hp
    obtain rfl := ok.inj h
    exact .endCommit hp

/-- The log area never moves. -/
theorem step_area (h : step s a = .ok s') : s'.log.start = s.log.start ∧ s'.log.size = s.log.size := by
  cases logStep_of_step h <;> exact ⟨rfl, rfl⟩

/-- Only `log_write` adds to the header. -/
theorem lh_step (hs : LogStep s a s')
    (ha : ∀ p b, a ≠ .logWrite p b) : s'.log.lh = s.log.lh ∨ s'.log.lh = LogHeader.empty := by
  cases hs with
  | logNew | absorb => exact absurd rfl (ha _ _)
  | erase => exact Or.inr rfl
  | _ => exact Or.inl rfl

/-! ### Who is active, who commits -/

@[simp] theorem goto_pc (s : LogSys P) (p : P) (c : Pc) : (s.goto p c).pc = update s.pc p c := rfl

@[simp] theorem goto_log (s : LogSys P) (p : P) (c : Pc) : (s.goto p c).log = s.log := rfl

@[simp] theorem goto_commits (s : LogSys P) (p : P) (c : Pc) :
    (s.goto p c).commits = s.commits := rfl

omit [DecidableEq P] in
/-- `wakeup` only moves processes from one waiting state to another. -/
theorem wakeup_cases (pc : P → Pc) (q : P) : wakeup pc q = pc q ∨ (wakeup pc q = .starting ∧ pc q = .asleep) := by
  unfold wakeup
  split_ifs with h
  · exact Or.inr ⟨rfl, h⟩
  · exact Or.inl rfl

omit [DecidableEq P] in
theorem wakeup_map {β : Type} (f : Pc → β) (hf : f .starting = f .asleep) (pc : P → Pc) (q : P) :
    f (wakeup pc q) = f (pc q) := by
  rcases wakeup_cases pc q with h | ⟨h, h'⟩
  · rw [h]
  · rw [h, h', hf]

/-- The contribution of a process to `log.outstanding`. -/
def weight (c : Pc) : Int := if c.isActive then 1 else 0

theorem weight_nonneg (c : Pc) : 0 ≤ weight c := by
  unfold weight
  split_ifs <;> decide

variable [Fintype P]

/-- `log.outstanding` counts the active processes, nobody is active during a
commit, and at most one process commits. -/
structure Phases (s : LogSys P) : Prop where
  count : s.log.outstanding = ∑ p, weight (s.pc p)
  quiet : s.log.committing = true → s.log.outstanding = 0
  owner : ∀ p, (s.pc p).isCommitter = true → s.log.committing = true
  unique : ∀ p q, (s.pc p).isCommitter = true → (s.pc q).isCommitter = true → p = q

namespace Phases

variable {s s' : LogSys P}

variable {p : P}

section

variable (h : Phases s)

include h

omit [DecidableEq P] in
theorem outstanding_pos (hp : (s.pc p).isActive = true) : 1 ≤ s.log.outstanding := by
  rw [h.count]
  calc (1 : Int) = weight (s.pc p) := by simp [weight, hp]
    _ ≤ ∑ q, weight (s.pc q) :=
        Finset.single_le_sum (fun q _ => weight_nonneg (s.pc q)) (Finset.mem_univ p)

omit [DecidableEq P] in
theorem not_committing (hp : (s.pc p).isActive = true) : s.log.committing = false := by
  rcases hc : s.log.committing with - | -
  · rfl
  · have h1 := h.outstanding_pos hp
    have h0 := h.quiet hc
    omega

omit [DecidableEq P] in
theorem not_committer (hp : (s.pc p).isActive = true) (q : P) : (s.pc q).isCommitter = false := by
  rcases hq : (s.pc q).isCommitter with - | -
  · rfl
  · have h1 := h.owner q hq
    rw [h.not_committing hp] at h1
    cases h1

omit [DecidableEq P] in
theorem not_active (hq : (s.pc q).isCommitter = true) (p : P) : (s.pc p).isActive = false := by
  rcases hp : (s.pc p).isActive with - | -
  · rfl
  · rw [h.not_committer hp q] at hq
    cases hq

end

end Phases

omit [DecidableEq P] in
theorem phases_boot (start size : Nat) : Phases (boot start size : LogSys P) := by
  refine ⟨?_, fun h => ?_, fun p h => ?_, fun p q h => ?_⟩
  · simp [boot, Log.boot, weight, Pc.isActive]
  · cases h
  · cases h
  · cases h

/-- The sum of weights after moving `p` to a state of the same kind. -/
theorem sum_weight_update (pc : P → Pc) (p : P) (c : Pc) :
    ∑ q, weight (update pc p c q) = (∑ q, weight (pc q)) + weight c - weight (pc p) := by
  have h := sum_update_trade weight pc p c
  omega

omit [DecidableEq P] in
theorem sum_weight_wakeup (pc : P → Pc) : ∑ q, weight (wakeup pc q) = ∑ q, weight (pc q) :=
  Finset.sum_congr rfl fun q _ => wakeup_map weight rfl pc q

variable {pc : P → Pc} {c : Pc}

omit [Fintype P] in
/-- Committers after moving `p`: those of before, and `p` if it commits now. -/
theorem isCommitter_update
    (h : (update pc p c q).isCommitter = true) :
    (q = p ∧ c.isCommitter = true) ∨ (q ≠ p ∧ (pc q).isCommitter = true) := by
  rcases eq_or_ne q p with rfl | hq
  · rw [update_self] at h
    exact Or.inl ⟨rfl, h⟩
  · rw [update_of_ne hq] at h
    exact Or.inr ⟨hq, h⟩

omit [DecidableEq P] [Fintype P] in
theorem isCommitter_wakeup (h : (wakeup pc q).isCommitter = true) : (pc q).isCommitter = true :=
  (wakeup_map Pc.isCommitter rfl pc q).symm.trans h

/-- A process that is in no commit moves to a state that is in none. -/
theorem Phases.goto_quiet (h : Phases s) (hp : weight (s.pc p) = weight c)
    (hc : c.isCommitter = false) : Phases (s.goto p c) := by
  have hcom : ∀ q, ((s.goto p c).pc q).isCommitter = true → (s.pc q).isCommitter = true := by
    intro q hq
    rcases isCommitter_update hq with ⟨-, h'⟩ | ⟨-, h'⟩
    · rw [hc] at h'; cases h'
    · exact h'
  refine ⟨?_, h.quiet, fun q hq => h.owner q (hcom q hq),
    fun q r hq hr => h.unique q r (hcom q hq) (hcom r hr)⟩
  show s.log.outstanding = ∑ q, weight (update s.pc p c q)
  rw [sum_weight_update, h.count]
  omega

/-- The committer moves on within its commit. -/
theorem Phases.goto_committer (h : Phases s)
    (hp : (s.pc p).isCommitter = true) (hc : c.isCommitter = true) : Phases (s.goto p c) := by
  have hcom : ∀ q, ((s.goto p c).pc q).isCommitter = true → (s.pc q).isCommitter = true := by
    intro q hq
    rcases isCommitter_update hq with ⟨rfl, -⟩ | ⟨-, h'⟩
    · exact hp
    · exact h'
  have hw : weight c = 0 := by rw [weight, isActive_of_isCommitter hc]; rfl
  have hw' : weight (s.pc p) = 0 := by
    rw [weight, h.not_active hp p]; rfl
  refine ⟨?_, h.quiet, fun q hq => h.owner q (hcom q hq),
    fun q r hq hr => h.unique q r (hcom q hq) (hcom r hr)⟩
  show s.log.outstanding = ∑ q, weight (update s.pc p c q)
  rw [sum_weight_update, h.count]
  omega

/-- **Phases are kept by every step.** -/
theorem Phases.step (h : Phases s) (hs : LogStep s a s') : Phases s' := by
  cases hs with
  | beginOp hp | sleep hp | wake hp => exact h.goto_quiet (by rw [hp]; rfl) rfl
  | @admitted p hp hc hroom =>
    have hcom : ∀ q, (update s.pc p (.active s.nextOp []) q).isCommitter = true → False := by
      intro q hq
      rcases isCommitter_update hq with ⟨-, h'⟩ | ⟨-, h'⟩
      · cases h'
      · have h1 := h.owner q h'
        rw [hc] at h1; cases h1
    refine ⟨?_, fun h' => ?_, fun q hq => (hcom q hq).elim, fun q _ hq => (hcom q hq).elim⟩
    · show s.log.outstanding + 1 = ∑ q, weight (update s.pc p (.active s.nextOp []) q)
      rw [sum_weight_update, ← h.count, hp]
      show _ = s.log.outstanding + 1 - 0
      omega
    · have h1 : s.log.committing = true := h'
      rw [hc] at h1; cases h1
  | @logNew p b op mine hp | @absorb p b op mine hp =>
    have h' := h.goto_quiet (c := .active op (mine.insert b)) (by rw [hp]; rfl) rfl
    exact ⟨h'.count, h'.quiet, h'.owner, h'.unique⟩
  | @endLast p op mine hp hc ho =>
    have hact : (s.pc p).isActive = true := by rw [hp]; rfl
    have hown : ∀ q, (update s.pc p .commit q).isCommitter = true → q = p := by
      intro q hq
      rcases isCommitter_update hq with ⟨h', -⟩ | ⟨-, h'⟩
      · exact h'
      · rw [h.not_committer hact q] at h'; cases h'
    refine ⟨?_, fun _ => rfl, fun _ _ => rfl, fun q r hq hr => (hown q hq).trans (hown r hr).symm⟩
    show (0 : Int) = ∑ q, weight (update s.pc p .commit q)
    rw [sum_weight_update, ← h.count, hp, ho]
    rfl
  | @endOther p op mine hp hc ho =>
    have hact : (s.pc p).isActive = true := by rw [hp]; rfl
    have hcom : ∀ q, (wakeup (update s.pc p .idle) q).isCommitter = true → False := by
      intro q hq
      rcases isCommitter_update (isCommitter_wakeup hq) with ⟨-, h'⟩ | ⟨-, h'⟩
      · cases h'
      · rw [h.not_committer hact q] at h'; cases h'
    refine ⟨?_, fun h' => ?_, fun q hq => (hcom q hq).elim, fun q _ hq => (hcom q hq).elim⟩
    · show s.log.outstanding - 1 = ∑ q, weight (wakeup (update s.pc p .idle) q)
      rw [sum_weight_wakeup, sum_weight_update, ← h.count, hp]
      show _ = s.log.outstanding + 0 - 1
      omega
    · have h1 : s.log.committing = true := h'
      rw [hc] at h1; cases h1
  | @move p c c' hp hc hc' hlate hdone =>
    exact h.goto_committer (by rw [hp]; exact hc) hc'
  | @writeHead p hp =>
    have h' := h.goto_committer (c := .install 0) (by rw [hp]; rfl) rfl
    exact ⟨h'.count, h'.quiet, h'.owner, h'.unique⟩
  | @erase p hp =>
    have h' := h.goto_committer (c := .clearHead) (by rw [hp]; rfl) rfl
    exact ⟨h'.count, h'.quiet, h'.owner, h'.unique⟩
  | @endCommit p hp =>
    have hcm : (s.pc p).isCommitter = true := by rw [hp]; rfl
    have hcom : ∀ q, (wakeup (update s.pc p .idle) q).isCommitter = true → False := by
      intro q hq
      rcases isCommitter_update (isCommitter_wakeup hq) with ⟨-, h'⟩ | ⟨hne, h'⟩
      · cases h'
      · exact hne (h.unique q p h' hcm)
    refine ⟨?_, fun h' => ?_, fun q hq => (hcom q hq).elim, fun q _ hq => (hcom q hq).elim⟩
    · show s.log.outstanding = ∑ q, weight (wakeup (update s.pc p .idle) q)
      rw [sum_weight_wakeup, sum_weight_update, ← h.count, hp]
      show _ = s.log.outstanding + 0 - 0
      omega
    · cases h'

/-! ### History -/

/-- Some process is in `commit` after the header write. -/
def Late (s : LogSys P) : Prop := ∃ p, (s.pc p).isLate = true

/-- What the history says about operations, headers and the log in memory. -/
structure History (s : LogSys P) : Prop where
  nodup : s.log.lh.blocks.Nodup
  op_lt : ∀ e ∈ s.hist, e.op < s.nextOp
  active_lt : ∀ p op mine, s.pc p = .active op mine → op < s.nextOp
  txn_le : ∀ e ∈ s.hist, e.txn ≤ s.commits.length
  /-- What an operation in progress has logged belongs to the next header. -/
  current : ∀ p op mine, s.pc p = .active op mine →
    ∀ e ∈ s.hist, e.op = op → e.txn = s.commits.length
  one_txn : ∀ e ∈ s.hist, ∀ e' ∈ s.hist, e.op = e'.op → e.txn = e'.txn
  /-- Until the header is written, the in-memory header lists what was logged
  since the last one. -/
  header : ¬ Late s → ∀ b, b ∈ s.log.lh.blocks ↔
    ∃ e ∈ s.hist, e.txn = s.commits.length ∧ e.block = b
  installed : Late s → ∀ e ∈ s.hist, e.txn < s.commits.length
  /-- Each header written lists what was logged since the one before. -/
  committed : ∀ t l, s.commits[t]? = some l → ∀ b, b ∈ l ↔
    ∃ e ∈ s.hist, e.txn = t ∧ e.block = b

omit [DecidableEq P] [Fintype P] in
theorem history_boot (start size : Nat) : History (boot start size : LogSys P) where
  nodup := nodup_nil
  op_lt := fun e he => by cases he
  active_lt := fun p op mine h => by cases h
  txn_le := fun e he => by cases he
  current := fun p op mine h => by cases h
  one_txn := fun e he => by cases he
  header := fun _ b => by simp [boot, Log.boot]
  installed := fun hl => by obtain ⟨p, hp⟩ := hl; cases hp
  committed := fun t l h => by simp [boot] at h

omit [DecidableEq P] [Fintype P] in
/-- A step that neither logs nor touches a header keeps the history, provided
it makes no operation active. -/
theorem History.frame (h : History s) (hlh : s'.log.lh = s.log.lh)
    (hhist : s'.hist = s.hist) (hcom : s'.commits = s.commits) (hnext : s'.nextOp = s.nextOp)
    (hact : ∀ p op mine, s'.pc p = .active op mine → ∃ p' mine', s.pc p' = .active op mine')
    (hlate : Late s' ↔ Late s) : History s' := by
  refine ⟨?_, ?_, ?_, ?_, ?_, ?_, ?_, ?_, ?_⟩
  · rw [hlh]; exact h.nodup
  · rw [hhist, hnext]; exact h.op_lt
  · intro p op mine hp
    obtain ⟨p', mine', hp'⟩ := hact p op mine hp
    rw [hnext]; exact h.active_lt p' op mine' hp'
  · rw [hhist, hcom]; exact h.txn_le
  · intro p op mine hp
    obtain ⟨p', mine', hp'⟩ := hact p op mine hp
    rw [hhist, hcom]; exact h.current p' op mine' hp'
  · rw [hhist]; exact h.one_txn
  · rw [hlh, hhist, hcom, hlate]; exact h.header
  · rw [hhist, hcom, hlate]; exact h.installed
  · rw [hhist, hcom]; exact h.committed

variable {op : Nat} {mine : List Nat}

omit [Fintype P] in
theorem active_update
    (hc : c.isActive = false) (h : update pc p c q = .active op mine) : pc q = .active op mine := by
  rcases eq_or_ne q p with rfl | hq
  · rw [update_self] at h
    rw [h] at hc; cases hc
  · rwa [update_of_ne hq] at h

omit [DecidableEq P] [Fintype P] in
theorem active_wakeup
    (h : wakeup pc q = .active op mine) : pc q = .active op mine := by
  rcases wakeup_cases pc q with h' | ⟨h', -⟩
  · rwa [h'] at h
  · rw [h'] at h; cases h

omit [Fintype P] in
theorem late_update_iff (hc : c.isLate = (pc p).isLate) :
    (∃ q, (update pc p c q).isLate = true) ↔ ∃ q, (pc q).isLate = true := by
  have hpt : ∀ q, (update pc p c q).isLate = (pc q).isLate := by
    intro q
    by_cases hq : q = p
    · subst hq; rw [update_self, hc]
    · rw [update_of_ne hq]
  simp only [hpt]

section

variable (h : History s)

include h

omit [Fintype P] in
/-- Moving a process without entering an operation or passing the header write. -/
theorem History.goto (hc : c.isActive = false) (hl : c.isLate = (s.pc p).isLate) : History (s.goto p c) :=
  h.frame rfl rfl rfl rfl (fun q _ mine hq => ⟨q, mine, active_update hc hq⟩) (late_update_iff hl)

omit [Fintype P] in
theorem History.goto_wakeup (lg : Log) (hlh : lg.lh = s.log.lh) (hl : (s.pc p).isLate = false) :
    History { s with log := lg, pc := wakeup (update s.pc p .idle) } := by
  refine h.frame hlh rfl rfl rfl
    (fun q _ mine hq => ⟨q, mine, active_update rfl (active_wakeup hq)⟩) ?_
  have hw : ∀ q, (wakeup (update s.pc p .idle) q).isLate = (update s.pc p .idle q).isLate :=
    wakeup_map Pc.isLate rfl _
  show (∃ q, (wakeup (update s.pc p .idle) q).isLate = true) ↔ _
  simp only [hw]
  exact late_update_iff hl.symm

/-- Recording one more `log_write` of `op` in the current transaction. -/
theorem History.log (hph : Phases s) {b : Nat} (hp : s.pc p = .active op mine) {lh : LogHeader}
    (hnd : lh.blocks.Nodup) (hmem : ∀ c, c ∈ lh.blocks ↔ c ∈ s.log.lh.blocks ∨ c = b) :
    History { s.goto p (.active op (mine.insert b)) with
      log := { s.log with lh := lh }, hist := s.hist ++ [⟨op, b, s.commits.length⟩] } := by
  have hact : (s.pc p).isActive = true := by rw [hp]; rfl
  -- while somebody is active, nobody is past the header write
  have hnl : ¬ Late s := by
    rintro ⟨q, hq⟩
    have hcm := hph.not_committer hact q
    rw [isCommitter_of_isLate hq] at hcm
    cases hcm
  have hnl' : ¬ Late { s.goto p (.active op (mine.insert b)) with
      log := { s.log with lh := lh }, hist := s.hist ++ [⟨op, b, s.commits.length⟩] } := by
    intro hl
    exact hnl ((late_update_iff (by rw [hp]; rfl)).mp hl)
  have hpc : ∀ q op' mine', update s.pc p (.active op (mine.insert b)) q = .active op' mine' →
      ∃ mine'', s.pc q = .active op' mine'' := by
    intro q op' mine' hq
    rcases eq_or_ne q p with rfl | hqp
    · rw [update_self] at hq
      cases hq
      exact ⟨mine, hp⟩
    · rw [update_of_ne hqp] at hq
      exact ⟨mine', hq⟩
  refine ⟨hnd, ?_, ?_, ?_, ?_, ?_, fun _ c => ?_, fun hl => absurd hl hnl', ?_⟩
  · intro e he
    rcases mem_append.mp he with he | he
    · exact h.op_lt e he
    · obtain rfl := mem_singleton.mp he
      exact h.active_lt p op mine hp
  · intro q op' mine' hq
    obtain ⟨mine'', hq'⟩ := hpc q op' mine' hq
    exact h.active_lt q op' mine'' hq'
  · intro e he
    rcases mem_append.mp he with he | he
    · exact h.txn_le e he
    · obtain rfl := mem_singleton.mp he
      exact le_refl _
  · intro q op' mine' hq e he hop
    obtain ⟨mine'', hq'⟩ := hpc q op' mine' hq
    rcases mem_append.mp he with he | he
    · exact h.current q op' mine'' hq' e he hop
    · obtain rfl := mem_singleton.mp he
      rfl
  · -- entries of this operation all carry the current number
    have hthis : ∀ e ∈ s.hist, e.op = op → e.txn = s.commits.length := h.current p op mine hp
    intro e he e' he' hop
    rcases mem_append.mp he with he | he <;> rcases mem_append.mp he' with he' | he'
    · exact h.one_txn e he e' he' hop
    · obtain rfl := mem_singleton.mp he'
      exact hthis e he hop
    · obtain rfl := mem_singleton.mp he
      exact (hthis e' he' hop.symm).symm
    · obtain rfl := mem_singleton.mp he
      obtain rfl := mem_singleton.mp he'
      rfl
  · rw [hmem c, h.header hnl c]
    constructor
    · rintro (⟨e, he, h1, h2⟩ | rfl)
      · exact ⟨e, by simp [he], h1, h2⟩
      · exact ⟨_, mem_append_right _ (mem_singleton.mpr rfl), rfl, rfl⟩
    · rintro ⟨e, he, h1, h2⟩
      rcases mem_append.mp he with he | he
      · exact Or.inl ⟨e, he, h1, h2⟩
      · obtain rfl := mem_singleton.mp he
        exact Or.inr h2.symm
  · intro t l hl c
    have hlt : t < s.commits.length := (List.getElem?_eq_some_iff.mp hl).1
    rw [h.committed t l hl c]
    constructor
    · rintro ⟨e, he, h1, h2⟩
      exact ⟨e, by simp [he], h1, h2⟩
    rintro ⟨e, he, h1, h2⟩
    rcases mem_append.mp he with he | he
    · exact ⟨e, he, h1, h2⟩
    · obtain rfl := mem_singleton.mp he
      exact absurd h1 (by simp only; omega)

/-- **History is kept by every step.** -/
theorem History.step (hph : Phases s) (hs : LogStep s a s') : History s' := by
  cases hs with
  | beginOp hp | sleep hp | wake hp => exact h.goto rfl (by rw [hp]; rfl)
  | @admitted p hp hc hroom =>
    -- the new operation has a fresh number and has logged nothing
    have hl : ∀ (lg : Log), Late { s.goto p (.active s.nextOp []) with
        log := lg, nextOp := s.nextOp + 1 } ↔ Late s := fun lg =>
      late_update_iff (by rw [hp]; rfl)
    have hpc : ∀ q op mine, update s.pc p (.active s.nextOp []) q = .active op mine →
        op = s.nextOp ∨ s.pc q = .active op mine := by
      intro q op mine hq
      rcases eq_or_ne q p with rfl | hqp
      · rw [update_self] at hq
        cases hq
        exact Or.inl rfl
      · rw [update_of_ne hqp] at hq
        exact Or.inr hq
    refine ⟨h.nodup, fun e he => Nat.lt_succ_of_lt (h.op_lt e he), ?_, h.txn_le, ?_, h.one_txn,
      fun hn => h.header fun hl' => hn ((hl _).mpr hl'), fun hl' => h.installed ((hl _).mp hl'),
      h.committed⟩
    · intro q op mine hq
      rcases hpc q op mine hq with rfl | hq'
      · exact Nat.lt_succ_self _
      · exact Nat.lt_succ_of_lt (h.active_lt q op mine hq')
    · intro q op mine hq e he hop
      rcases hpc q op mine hq with rfl | hq'
      · exact absurd hop (Nat.ne_of_lt (h.op_lt e he))
      · exact h.current q op mine hq' e he hop
  | @logNew p b op mine hp hb hn hsize =>
    refine h.log hph hp ?_ fun c => ?_
    · exact h.nodup.append (nodup_singleton b) (by simpa using hb)
    · show c ∈ s.log.lh.blocks ++ [b] ↔ _
      simp
  | @absorb p b op mine hp hb =>
    refine h.log hph hp h.nodup fun c => ⟨Or.inl, ?_⟩
    rintro (hc | rfl)
    · exact hc
    · exact hb
  | @endLast p op mine hp hc ho =>
    have h' := h.goto (c := .commit) rfl (by rw [hp]; rfl)
    exact ⟨h'.nodup, h'.op_lt, h'.active_lt, h'.txn_le, h'.current, h'.one_txn, h'.header,
      h'.installed, h'.committed⟩
  | @endOther _ _ _ hp | @endCommit _ hp => exact h.goto_wakeup _ rfl (by rw [hp]; rfl)
  | @move p c c' hp hc hc' hlate hdone =>
    exact h.goto (isActive_of_isCommitter hc') (by rw [hp]; exact hlate)
  | @writeHead p hp =>
    have hcm : (s.pc p).isCommitter = true := by rw [hp]; rfl
    have hna := hph.not_active hcm
    -- only `p` is committing, and it has not written the header yet
    have hnl : ¬ Late s := by
      rintro ⟨q, hq⟩
      obtain rfl := hph.unique q p (isCommitter_of_isLate hq) hcm
      rw [hp] at hq; cases hq
    have hl : Late { s.goto p (.install 0) with commits := s.commits ++ [s.log.lh.blocks] } :=
      ⟨p, by simp [Pc.isLate]⟩
    have hnoact : ∀ q op mine, update s.pc p (.install 0) q ≠ .active op mine := by
      intro q op mine hq
      have h1 := hna q
      rw [active_update rfl hq] at h1
      cases h1
    have hle : ∀ e ∈ s.hist, e.txn < (s.commits ++ [s.log.lh.blocks]).length := by
      intro e he
      have h1 := h.txn_le e he
      simp only [length_append, length_singleton]
      omega
    refine ⟨h.nodup, h.op_lt, fun q op mine hq => absurd hq (hnoact q op mine),
      fun e he => (hle e he).le, fun q op mine hq => absurd hq (hnoact q op mine), h.one_txn,
      fun hn => absurd hl hn, fun _ => hle, ?_⟩
    intro t l ht b
    rw [List.getElem?_append] at ht
    split_ifs at ht with hlt
    · exact h.committed t l ht b
    obtain ⟨h0, h1⟩ := List.getElem?_eq_some_iff.mp ht
    simp only [length_singleton] at h0
    obtain rfl : t = s.commits.length := by omega
    obtain rfl : s.log.lh.blocks = l := by simpa using h1
    exact h.header hnl b
  | @erase p hp =>
    have hcm : (s.pc p).isCommitter = true := by rw [hp]; rfl
    have hinst := h.installed ⟨p, by rw [hp]; rfl⟩
    have hnoact : ∀ q op mine, update s.pc p .clearHead q = .active op mine →
        s.pc q = .active op mine := fun q op mine hq => active_update rfl hq
    have hnl : ¬ Late { s.goto p .clearHead with log := s.log.erase } := by
      rintro ⟨q, hq⟩
      rcases isCommitter_update (isCommitter_of_isLate hq) with ⟨rfl, -⟩ | ⟨hne, h'⟩
      · simp [Pc.isLate] at hq
      · exact hne (hph.unique q p h' hcm)
    refine ⟨nodup_nil, h.op_lt, fun q op mine hq => h.active_lt q op mine (hnoact q op mine hq),
      h.txn_le, fun q op mine hq => h.current q op mine (hnoact q op mine hq), h.one_txn,
      fun _ b => ?_, fun hl => absurd hl hnl, h.committed⟩
    constructor
    · intro hb; cases hb
    · rintro ⟨e, he, h1, -⟩
      exact absurd h1 (Nat.ne_of_lt (hinst e he))

end

omit [Fintype P] in
/-- An operation in progress goes on until its own `end_op`. -/
theorem isActive_step (hs : LogStep s a s')
    (hq : (s.pc q).isActive = true) : (s'.pc q).isActive = true ∨ a = .endOp q := by
  have hupd : ∀ {p : P} {c : Pc}, ((s.pc p).isActive = true → c.isActive = true) →
      (update s.pc p c q).isActive = true := by
    intro p c hc
    by_cases hqp : q = p
    · subst hqp; rw [update_self]; exact hc hq
    · rw [update_of_ne hqp]; exact hq
  have hwake : ∀ {p : P}, p ≠ q → (wakeup (update s.pc p .idle) q).isActive = true := by
    intro p hp
    rw [wakeup_map Pc.isActive rfl, update_of_ne (Ne.symm hp)]
    exact hq
  cases hs with
  | @beginOp _ hp | @sleep _ hp | @wake _ hp | @writeHead _ hp | @erase _ hp =>
    exact Or.inl (hupd fun h => by rw [hp] at h; cases h)
  | admitted | logNew | absorb => exact Or.inl (hupd fun _ => rfl)
  | @endLast p op mine hp hc ho =>
    by_cases hqp : q = p
    · exact Or.inr (by rw [hqp])
    left
    show (update s.pc p .commit q).isActive = true
    rw [update_of_ne hqp]
    exact hq
  | @endOther p op mine hp hc ho =>
    by_cases hqp : q = p
    · exact Or.inr (by rw [hqp])
    · exact Or.inl (hwake (Ne.symm hqp))
  | @move p c c' hp hc hc' hlate hdone =>
    refine Or.inl (hupd fun h => ?_)
    rw [hp, isActive_of_isCommitter hc] at h
    cases h
  | @endCommit p hp =>
    refine Or.inl (hwake ?_)
    rintro rfl
    rw [hp] at hq; cases hq

/-! ### The log is empty when nobody uses it -/

/-- Nothing is logged once a transaction is erased, nor while no operation is
outstanding and none commits. -/
structure Drained (s : LogSys P) : Prop where
  done : ∀ p, (s.pc p).isDone = true → s.log.lh.n = 0
  idle : s.log.committing = false → s.log.outstanding = 0 → s.log.lh.n = 0

omit [DecidableEq P] [Fintype P] in
theorem drained_boot (start size : Nat) : Drained (boot start size : LogSys P) :=
  ⟨fun _ _ => rfl, fun _ _ => rfl⟩

omit [Fintype P] in
theorem isDone_update (hc : c.isDone = false) (h : (update pc p c q).isDone = true) : (pc q).isDone = true := by
  rcases eq_or_ne q p with rfl | hq
  · rw [update_self, hc] at h
    cases h
  · rwa [update_of_ne hq] at h

omit [Fintype P] in
theorem Drained.goto (h : Drained s)
    (hc : c.isDone = true → (s.pc p).isDone = true ∨ s.log.lh.n = 0) : Drained (s.goto p c) := by
  refine ⟨fun q hq => ?_, h.idle⟩
  rcases hd : c.isDone with - | -
  · exact h.done q (isDone_update hd hq)
  · rcases hc hd with hp | hn
    · exact h.done p hp
    · exact hn

/-- **Nothing stays behind in the log**, whatever the step. -/
theorem Drained.step (h : Drained s) (hph : Phases s) (hs : LogStep s a s') : Drained s' := by
  -- an operation in progress excludes both situations
  have hactive : ∀ {p : P} {c : Pc} {lg : Log}, (s.pc p).isActive = true → c.isDone = false →
      ∀ q, (update s.pc p c q).isDone = true → lg.lh.n = 0 := by
    intro p c lg hp hc q hq
    have hcm := hph.not_committer hp q
    rw [isCommitter_of_isDone (isDone_update hc hq)] at hcm
    cases hcm
  cases hs with
  | beginOp | sleep | wake => exact h.goto fun hd => by cases hd
  | @admitted p hp hc hroom =>
    refine ⟨fun q hq => h.done q (isDone_update rfl hq), fun _ ho => ?_⟩
    have h0 : 0 ≤ s.log.outstanding := by
      rw [hph.count]
      exact Finset.sum_nonneg fun q _ => weight_nonneg _
    have h1 : s.log.outstanding + 1 = 0 := ho
    omega
  | @logNew p b op mine hp hb hn hsize =>
    have hact : (s.pc p).isActive = true := by rw [hp]; rfl
    refine ⟨hactive hact rfl, fun _ ho => ?_⟩
    have h1 := hph.outstanding_pos hact
    have h0 : s.log.outstanding = 0 := ho
    omega
  | @absorb p b op mine hp hb =>
    have hact : (s.pc p).isActive = true := by rw [hp]; rfl
    exact ⟨hactive hact rfl, h.idle⟩
  | @endLast p op mine hp hc ho =>
    have hact : (s.pc p).isActive = true := by rw [hp]; rfl
    exact ⟨hactive hact rfl, fun hc' => by cases hc'⟩
  | @endOther p op mine hp hc ho =>
    refine ⟨fun q hq => h.done q (isDone_update (p := p) (c := .idle) rfl ?_), fun _ h0 => ?_⟩
    · exact (wakeup_map Pc.isDone rfl _ q).symm.trans hq
    · have h1 : s.log.outstanding - 1 = 0 := h0
      omega
  | @move p c c' hp hc hc' hlate hdone => exact h.goto (by rw [hp]; exact hdone)
  | @writeHead p hp =>
    have h' := h.goto (p := p) (c := .install 0) fun hd => by cases hd
    exact ⟨h'.done, h'.idle⟩
  | erase hp => exact ⟨fun _ _ => rfl, fun _ _ => rfl⟩
  | @endCommit p hp =>
    have h0 := h.done p (by rw [hp]; rfl)
    exact ⟨fun _ _ => h0, fun _ _ => h0⟩

/-! ### Runs -/

/-- The invariant of the system. -/
structure LogInv (s : LogSys P) : Prop where
  phases : Phases s
  history : History s
  drained : Drained s

theorem logInv_step (h : LogInv s) (hs : step s a = .ok s') : LogInv s' :=
  have hl := logStep_of_step hs
  ⟨h.phases.step hl, h.history.step h.phases hl, h.drained.step h.phases hl⟩

/-- **The invariant holds in every state of every run.** -/
theorem logInv_run {start size : Nat} {as : List (Act P)} (h : Machine.Run step (boot start size) as s) : LogInv s :=
  h.invariant (fun _ _ _ hi hs => logInv_step hi hs)
    ⟨phases_boot start size, history_boot start size, drained_boot start size⟩

omit [DecidableEq P] in
/-- While nobody is in an operation or a commit, everything ever logged is in a
header that was written. -/
theorem LogInv.all_committed (h : LogInv s) (hc : s.log.committing = false)
    (ho : s.log.outstanding = 0) : ∀ e ∈ s.hist, e.txn < s.commits.length := by
  intro e he
  have hnl : ¬ Late s := by
    rintro ⟨q, hq⟩
    have hcm := h.phases.owner q (isCommitter_of_isLate hq)
    rw [hc] at hcm
    cases hcm
  refine lt_of_le_of_ne (h.history.txn_le e he) fun heq => ?_
  have hmem := (h.history.header hnl e.block).mpr ⟨e, he, heq, rfl⟩
  rw [eq_nil_of_length_eq_zero (h.drained.idle hc ho)] at hmem
  cases hmem

/-! ### Panics -/

variable {msg : String}

omit [Fintype P] in
/-- Every panic of the system is one of `log_write` or of `end_op`, called by a
process that is in an operation. -/
theorem step_panic (h : step s a = .panic msg) :
    (∃ p b, a = .logWrite p b ∧ (s.pc p).isActive = true ∧ s.log.write b = .panic msg) ∨
      (∃ p, a = .endOp p ∧ (s.pc p).isActive = true ∧ s.log.endOp = .panic msg) := by
  cases a with
  | logWrite p b =>
    left
    simp only [step] at h
    split at h
    · rename_i op mine hp
      rcases hw : s.log.write b with lg | - | msg' <;> rw [hw] at h
      · cases h
      · cases h
      · exact ⟨p, b, rfl, by rw [hp]; rfl, by rw [hw]; simpa using h⟩
    · cases h
  | endOp p =>
    right
    simp only [step] at h
    split at h
    · rename_i op mine hp
      rcases hw : s.log.endOp with ⟨lg, f⟩ | - | msg' <;> rw [hw] at h
      · cases f <;> cases h
      · cases h
      · exact ⟨p, rfl, by rw [hp]; rfl, by simpa using h⟩
    · cases h
  | tryBegin p =>
    simp only [step] at h
    split_ifs at h
    split at h <;> cases h
  | commit p =>
    simp only [step, commitStep] at h
    split at h <;> cases h
  | beginOp p | wake p | endCommit p =>
    simp only [step] at h
    split_ifs at h

/-- The only panic that a step can reach is the one about the log's size. -/
theorem step_panic_tooBig (h : LogInv s) (hp : step s a = .panic msg) :
    msg = "too big a transaction" ∧
      ∃ p b, a = .logWrite p b ∧ (s.pc p).isActive = true ∧
        (s.log.lh.n ≥ LOGSIZE ∨ (s.log.lh.n : Int) ≥ s.log.size - 1) := by
  rcases step_panic hp with ⟨p, b, rfl, hact, hw⟩ | ⟨p, rfl, hact, hw⟩
  · rcases Log.write_panic hw with ⟨hm, hn⟩ | ⟨-, ho⟩
    · exact ⟨hm, p, b, rfl, hact, hn⟩
    · have := h.phases.outstanding_pos hact
      omega
  · have hc := (Log.endOp_panic hw).2
    rw [h.phases.not_committing hact] at hc
    cases hc

omit [Fintype P] in
theorem tryBegin_committing (hc : s.log.committing = true) (h : step s (.tryBegin p) = .ok s') : s'.pc p = .asleep := by
  rcases logStep_of_step h with _ | ⟨-, hc', -⟩ | hp
  · rw [hc] at hc'; cases hc'
  · exact update_self ..

theorem logWrite_committing (h : LogInv s) (hc : s.log.committing = true) (p : P)
    (b : Nat) : step s (.logWrite p b) = .blocked := by
  simp only [step]
  split
  · rename_i op mine hp
    rw [h.phases.not_committing (by rw [hp]; rfl)] at hc
    cases hc
  · rfl

/-- **Operations are never split across transactions.**  In every state of every
run, for any number of processes and any interleaving: during a commit no
operation is outstanding, no `begin_op` completes and no `log_write` executes;
the panics "log.committing" and "log_write outside of trans" are not
reachable; all `log_write`s of one operation carry the same transaction
number, the header written with that number lists exactly the blocks logged
under it, and it has been written once the log is idle again. -/
theorem ops_in_one_transaction {start size : Nat} {as : List (Act P)} {s : LogSys P}
    (h : Machine.Run step (boot start size) as s) :
    (s.log.committing = true → s.log.outstanding = 0) ∧
    (s.log.committing = true → ∀ p s', step s (.tryBegin p) = .ok s' → s'.pc p = .asleep) ∧
    (s.log.committing = true → ∀ p b, step s (.logWrite p b) = .blocked) ∧
    (∀ a, step s a ≠ .panic "log.committing" ∧ step s a ≠ .panic "log_write outside of trans") ∧
    (∀ e ∈ s.hist, ∀ e' ∈ s.hist, e.op = e'.op → e.txn = e'.txn) ∧
    (∀ t l, s.commits[t]? = some l → ∀ b, b ∈ l ↔ ∃ e ∈ s.hist, e.txn = t ∧ e.block = b) ∧
    (s.log.committing = false → s.log.outstanding = 0 →
      ∀ e ∈ s.hist, e.txn < s.commits.length) := by
  have hi := logInv_run h
  refine ⟨hi.phases.quiet, fun hc p s' hs => tryBegin_committing hc hs,
    fun hc p b => logWrite_committing hi hc p b, fun a => ⟨fun hp => ?_, fun hp => ?_⟩,
    hi.history.one_txn, hi.history.committed, hi.all_committed⟩
  · exact absurd (step_panic_tooBig hi hp).1 (by decide)
  · exact absurd (step_panic_tooBig hi hp).1 (by decide)

end Machine

/-- Two processes: one operation logs block 40 and commits while the other
process goes to sleep in `begin_op`. -/
def commitWhileWaiting : List (Act (Fin 2)) :=
  [.beginOp 0, .tryBegin 0, .logWrite 0 40, .endOp 0, .beginOp 1, .tryBegin 1,
    .commit 0, .commit 0, .commit 0, .commit 0]

/-- The run exists, and its last state satisfies all of the above. -/
theorem ops_in_one_transaction_two :
    ∃ s, Machine.Run step (boot 2 30) commitWhileWaiting s ∧ s.pc 1 = .asleep ∧
      s.commits = [[40]] ∧ (s.log.committing = true → s.log.outstanding = 0) := by
  have hrun : ∃ s, Machine.outcome step (boot 2 30) commitWhileWaiting = .ok s ∧
      s.pc 1 = .asleep ∧ s.commits = [[40]] := ⟨_, rfl, rfl, rfl⟩
  obtain ⟨s, ho, h1, h2⟩ := hrun
  have hr := Machine.run_of_outcome ho
  exact ⟨s, hr, h1, h2, (ops_in_one_transaction hr).1⟩

end Xv6.LogOps
