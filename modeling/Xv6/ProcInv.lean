/-
Xv6/ProcInv.lean

What holds of all threads together, whatever the schedule.

`Locks` says who has which lock, and `Stacks` on whose stack each CPU is.  `Marks`
gives the private notes of the threads their meaning, `Chans` and `Kin` do that
for the notes which go with a lock.  `Life` compares the table with the log, and
`Kills` is about `p->killed`.  Each part is kept by whatever the rules allow; the
proofs are in ProcStack.lean, ProcNotes.lean and ProcKin.lean.
-/
import Xv6.ProcView

namespace Xv6.Sched

variable {n : Nat} {C : Type}

/-- The process has started and has not exited. -/
def PState.alive : PState → Bool
  | .runnable | .running | .sleeping => true
  | _ => false

/-! ### Threads and CPUs -/

section Threads

variable {s : Sys n C} {G : Thread n C → Priv n} {c : C} {p : Fin n} {c' : C}

theorem thr_of_cur (h : s.cur c = some p) : s.thr c = .proc p := by rw [Sys.thr, h]

theorem thr_of_idle (h : s.cur c = none) : s.thr c = .sched c := by rw [Sys.thr, h]

theorem cur_of_thr (h : s.thr c = .proc p) : s.cur c = some p := by
  rcases hc : s.cur c with - | q
  · rw [thr_of_idle hc] at h
    cases h
  · rw [thr_of_cur hc] at h
    rw [Thread.proc.inj h]

theorem idle_of_thr (h : s.thr c = .sched c') : s.cur c = none ∧ c' = c := by
  rcases hc : s.cur c with - | q
  · rw [thr_of_idle hc] at h
    exact ⟨rfl, (Thread.sched.inj h).symm⟩
  · rw [thr_of_cur hc] at h
    cases h

theorem who_thr (s : Sys n C) (c : C) : (s.thr c).who = s.cur c := by
  rcases hc : s.cur c with - | q
  · rw [thr_of_idle hc]
    rfl
  · rw [thr_of_cur hc]
    rfl

theorem thr_setCur [DecidableEq C] {o : Option (Fin n)} (hc : c' ≠ c) : (s.setCur c o).thr c' = s.thr c' := by
  rw [Sys.thr, Sys.thr, show (s.setCur c o).cur c' = s.cur c' from Function.update_of_ne hc ..]

end Threads

/-! ### Locks and stacks -/

/-- Where the scheduler of a CPU is that is on its stack. -/
def SchedAt (s : Sys n C) (c : C) : Phase n → Prop
  | .idle => True
  | .picked p | .go p => s.lock (.proc p) = some c ∧ s.k.state p = .running ∧ ∀ c', s.cur c' ≠ some p
  | .back p => s.lock (.proc p) = some c
  | _ => False

/-- Where a process is on whose stack there is a CPU. -/
def ProcAt (s : Sys n C) (c : C) (p : Fin n) : Phase n → Prop
  | .run => s.k.state p = .running
  | .leave => s.lock (.proc p) = some c ∧ s.k.state p ≠ .running
  | _ => False

/-- **Who has which lock.** -/
structure Locks (s : Sys n C) (G : Thread n C → Priv n) : Prop where
  held : ∀ c l, l ∈ (G (s.thr c)).held ↔ s.lock l = some c
  nodup : ∀ c, (G (s.thr c)).held.Nodup
  noff : ∀ c, s.noff c = (G (s.thr c)).held.length

/-- **On whose stack each CPU is.**  A thread that is not on a CPU has left with its lock. -/
structure Stacks (s : Sys n C) (G : Thread n C → Priv n) : Prop where
  cproc : ∀ c, s.cproc c = (G (.sched c)).phase.proc
  idle : ∀ c, s.cur c = none → SchedAt s c (G (.sched c)).phase
  busy : ∀ c p, s.cur c = some p → (G (.sched c)).phase = .back p ∧ (G (.sched c)).held = [.proc p]
  proc : ∀ c p, s.cur c = some p → ProcAt s c p (G (.proc p)).phase
  inj : ∀ c c' p, s.cur c = some p → s.cur c' = some p → c = c'
  running : ∀ p, s.k.state p = .running → (∃ c, s.cur c = some p) ∨
    ∃ c, s.cur c = none ∧ ((G (.sched c)).phase = .picked p ∨ (G (.sched c)).phase = .go p)
  away : ∀ p, (∀ c, s.cur c ≠ some p) → (G (.proc p)).held = [.proc p] ∧ (G (.proc p)).phase = .leave

/-! ### The notes of a thread -/

/-- What the notes of thread `t` mean. -/
structure MarkOk (s : Sys n C) (t : Thread n C) (g : Priv n) : Prop where
  child : ∀ q, g.child = some q → t.who ≠ none ∧ t.who ≠ some q ∧ s.k.state q = .used
  drowsy : ∀ l, g.drowsy = some l → ∃ c p, t = .proc p ∧ s.cur c = some p ∧ s.lock (.proc p) = some c ∧ g.phase = .run
  wakes : ∀ q, g.wakes = some q → ∃ c, s.thr c = t ∧ s.lock (.proc q) = some c
  blames : ∀ q, g.blames = some q →
    (t ≠ .proc q ∧ ∃ c, s.thr c = t ∧ s.lock (.proc q) = some c) ∨ t = .proc q ∧ (s.k.state q).alive = true
  tested : ∀ p, t = .proc p → g.tested = s.k.window p ∧ (g.tested = true → (s.k.state p).alive = true)

structure Marks (s : Sys n C) (G : Thread n C → Priv n) : Prop where
  ok : ∀ t, MarkOk s t (G t)
  uniq : ∀ t t' q, (G t).child = some q → (G t').child = some q → t = t'

/-! ### Sleepers, parents, the log and `killed` -/

/-- The process is asleep on the channel, or about to be. -/
def Asleep (s : Sys n C) (G : Thread n C → Priv n) (ch : Chan n) (p : Fin n) : Prop :=
  s.k.state p = .sleeping ∧ s.k.chan p = some ch ∨ (G (.proc p)).drowsy = some (lockOf ch)

/-- **No wakeup is lost.** -/
structure Chans (s : Sys n C) (G : Thread n C → Priv n) (a : Aux n) : Prop where
  cond : ∀ i p, s.lock (.cond i) = none → s.k.cond i = true → ¬ Asleep s G (.cond i) p
  passed : ∀ ch p, s.lock (lockOf ch) ≠ none → a.passed ch p = true → ¬ Asleep s G ch p

/-- **Parents.**  A ZOMBIE whose parent is asleep in `wait` was given to init a moment ago. -/
structure Kin [NeZero n] (s : Sys n C) (G : Thread n C → Priv n) (a : Aux n) : Prop where
  unused : ∀ q, s.k.state q = .unused → s.k.parent q = none
  child : ∀ t q, (G t).child = some q → ((G t).linked = true ↔ s.k.parent q ≠ none)
  alive : ∀ q r, s.k.parent q = some r → (s.k.state r).alive = true
  parent : ∀ q, q ≠ initproc → (s.k.state q).alive = true ∨ s.k.state q = .zombie →
    s.k.parent q ≠ none ∨ a.freeing = some q ∧ s.lock .wait ≠ none
  init : (s.k.state initproc).alive = true
  zombie : ∀ q r, s.k.state q = .zombie → s.k.parent q = some r → Asleep s G (.proc r) r →
    s.lock .wait ≠ none ∧ a.dirty = true ∧ r = initproc
  nz : ∀ q, s.lock .wait ≠ none → a.nz q = true → s.k.state q ≠ .zombie

/-- **The table and the log.** -/
structure Life (s : Sys n C) : Prop where
  settled : ∀ q, s.lock (.proc q) = none → Settled s.k q
  order : ∀ q, life q s.k.log ≠ none
  born : ∀ q, s.k.state q ≠ .unused → born q s.k.log ≠ none

/-- **`p->killed`**: it is set for a reason if no call of `kill` names pid 0 (`strict`), and no sleeper has it
if nobody sets it between the test and the sleep (`fair`). -/
structure Kills (strict fair : Prop) (s : Sys n C) (G : Thread n C → Priv n) : Prop where
  blamed : strict → ∀ q, s.k.killed q = true → s.k.state q ≠ .unused ∧ Blamed q s.k.log
  blames : strict → ∀ t q, (G t).blames = some q → s.k.state q ≠ .unused ∧ Blamed q s.k.log
  window : fair → ∀ p, s.k.window p = true → s.k.killed p = false
  wakes : fair → ∀ p ch, s.k.state p = .sleeping → s.k.chan p = some ch → killable ch = true →
    s.k.killed p = true → ∃ c, s.lock (.proc p) = some c ∧ (G (s.thr c)).wakes = some p ∧ s.k.killing p = true

/-- **The invariant of the kernel.** -/
structure Pool [NeZero n] (strict fair : Prop) (s : Sys n C) (G : Thread n C → Priv n) (a : Aux n) : Prop where
  locks : Locks s G
  stack : Stacks s G
  marks : Marks s G
  chans : Chans s G a
  kin : Kin s G a
  life : Life s
  kills : Kills strict fair s G

/-! ### Changes of state -/

section Moves

/-- The machine after `p->state = st`. -/
def Sys.move (s : Sys n C) (q : Fin n) (st : PState) : Sys n C :=
  s.setK (if st = .sleeping then (s.k.setState q st).setWindow q false else s.k.setState q st)

variable {s : Sys n C} {q : Fin n} {st : PState}

@[simp] theorem move_state : (s.move q st).k.state = Function.update s.k.state q st := by
  rw [Sys.move]
  split <;> rfl

@[simp] theorem move_window :
    (s.move q st).k.window = if st = .sleeping then Function.update s.k.window q false else s.k.window := by
  rw [Sys.move]
  split <;> rfl

@[simp] theorem move_rest : (s.move q st).k.pid = s.k.pid ∧ (s.move q st).k.parent = s.k.parent ∧
    (s.move q st).k.chan = s.k.chan ∧ (s.move q st).k.killed = s.k.killed ∧
    (s.move q st).k.xstate = s.k.xstate ∧ (s.move q st).k.cond = s.k.cond ∧ (s.move q st).k.log = s.k.log := by
  rw [Sys.move]
  split <;> exact ⟨rfl, rfl, rfl, rfl, rfl, rfl, rfl⟩

@[simp] theorem move_killing : (s.move q st).k.killing = s.k.killing := by
  rw [Sys.move]
  split <;> rfl

variable [NeZero n] {who : Option (Fin n)} {m : Know n} {g : Priv n} {a : Aux n}

/-- Only a process itself can stop being alive. -/
theorem Moves.alive (h : Moves who m q st g a) (hwho : who ≠ some q) (halive : (m.k.state q).alive = true) :
    st.alive = true := by
  cases h with
  | alloc hst | abort hst | reap hst => rw [hst] at halive; cases halive
  | wake | birth | pick => rfl
  | yield hself | sleep _ hself | exit hself => exact absurd hself hwho

/-- Only the thread that sets a process up changes the state USED. -/
theorem Moves.used (h : Moves who m q st g a) (hused : m.k.state q = .used) :
    m.g.child = some q ∨ who = some q ∧ m.g.phase = .run := by
  cases h with
  | alloc hst | reap hst | wake hst | pick _ _ hst => rw [hused] at hst; cases hst
  | abort _ hchild | birth hchild => exact .inl hchild
  | yield hself hrun | sleep _ hself hrun | exit hself hrun => exact .inr ⟨hself, hrun⟩

end Moves

end Xv6.Sched
