/-
Xv6/Cpu.lean

The machine of CPUs, which carry out the programs of Proc.lean.

`cur c` is the thread on whose stack CPU `c` is, and `c->proc` is a field of
its own: that the two agree is a theorem.  The context of a thread that no CPU
is in is the rest of its program, so that `swtch` need only change `cur`.  Locks
belong to CPUs, as in spinlock.c, where `lk->cpu` is how `holding` knows.

A trap interrupts a thread where no lock is held.  It is taken on the same stack
(`trap`), and no other before it is over.
-/
import Xv6.Proc

namespace Xv6.Sched

open Function

/-- A kernel thread: that of a process, or the scheduler of a CPU. -/
inductive Thread (n : Nat) (C : Type) where
  | proc (p : Fin n)
  | sched (c : C)
  deriving DecidableEq

/-- The process of a thread. -/
def Thread.who {n : Nat} {C : Type} : Thread n C → Option (Fin n)
  | .proc p => some p
  | .sched _ => none

/-- The shared memory. -/
structure Store (n : Nat) where
  state : Fin n → PState
  pid : Fin n → Int32
  parent : Fin n → Option (Fin n)
  chan : Fin n → Option (Chan n)
  killed : Fin n → Bool
  xstate : Fin n → Int32
  nextpid : Int32
  cond : Nat → Bool
  pipe : Nat → Pipe
  cons : Cons
  /-- What has happened, the latest first. -/
  log : List (Event n)
  /-- The process has found `p->killed` to be 0 and is going to sleep. -/
  window : Fin n → Bool
  /-- `kill` has set `p->killed` and has not released `p->lock` yet. -/
  killing : Fin n → Bool

namespace Store

variable {n : Nat} (k : Store n) (p : Fin n)

@[simps] def setState (st : PState) : Store n := { k with state := update k.state p st }

@[simps] def setPid (v : Int32) : Store n := { k with pid := update k.pid p v }

@[simps] def setParent (o : Option (Fin n)) : Store n := { k with parent := update k.parent p o }

@[simps] def setChan (o : Option (Chan n)) : Store n := { k with chan := update k.chan p o }

@[simps] def setKilled (b : Bool) : Store n := { k with killed := update k.killed p b }

@[simps] def setXstate (v : Int32) : Store n := { k with xstate := update k.xstate p v }

@[simps] def setNextpid (v : Int32) : Store n := { k with nextpid := v }

@[simps] def setCond (i : Nat) (b : Bool) : Store n := { k with cond := update k.cond i b }

@[simps] def setPipe (i : Nat) (x : Pipe) : Store n := { k with pipe := update k.pipe i x }

@[simps] def setCons (x : Cons) : Store n := { k with cons := x }

@[simps] def note (ev : Event n) : Store n := { k with log := ev :: k.log }

@[simps] def setWindow (b : Bool) : Store n := { k with window := update k.window p b }

@[simps] def setKilling (b : Bool) : Store n := { k with killing := update k.killing p b }

/-- Who releases `p->lock` is not in `kill` any more. -/
def endKill : Lock n → Store n
  | .proc q => k.setKilling q false
  | _ => k

theorem endKill_rest (l : Lock n) : (k.endKill l).state = k.state ∧ (k.endKill l).pid = k.pid ∧
    (k.endKill l).parent = k.parent ∧ (k.endKill l).chan = k.chan ∧ (k.endKill l).killed = k.killed ∧
    (k.endKill l).xstate = k.xstate ∧ (k.endKill l).cond = k.cond ∧ (k.endKill l).log = k.log ∧
    (k.endKill l).window = k.window := by
  cases l <;> exact ⟨rfl, rfl, rfl, rfl, rfl, rfl, rfl, rfl, rfl⟩

end Store

/-- The state of the machine. -/
structure Sys (n : Nat) (C : Type) where
  k : Store n
  lock : Lock n → Option C
  noff : C → Nat
  /-- `c->proc`. -/
  cproc : C → Option (Fin n)
  /-- The process on whose kernel stack the CPU is; if none, it is on that of its scheduler. -/
  cur : C → Option (Fin n)
  prog : Thread n C → KProg n (Next n)
  trap : Thread n C → Option (KProg n Unit)

section Machine

variable {n : Nat} {C : Type} [DecidableEq C]

namespace Sys

variable (s : Sys n C)

@[simps] def setK (k : Store n) : Sys n C := { s with k := k }

@[simps] def setLock (l : Lock n) (o : Option C) : Sys n C := { s with lock := update s.lock l o }

@[simps] def setNoff (c : C) (m : Nat) : Sys n C := { s with noff := update s.noff c m }

@[simps] def setCproc (c : C) (o : Option (Fin n)) : Sys n C :=
  { s with cproc := update s.cproc c o }

@[simps] def setCur (c : C) (o : Option (Fin n)) : Sys n C := { s with cur := update s.cur c o }

@[simps] def setProg (t : Thread n C) (x : KProg n (Next n)) : Sys n C :=
  { s with prog := update s.prog t x }

@[simps] def setTrap (t : Thread n C) (x : Option (KProg n Unit)) : Sys n C :=
  { s with trap := update s.trap t x }

/-- The thread that a CPU executes. -/
def thr (c : C) : Thread n C :=
  match s.cur c with
  | some p => .proc p
  | none => .sched c

end Sys

/-- What the operations do, on CPU `c`.  What comes from outside is in the hint. -/
def exec (c : C) (hint : Option UInt8) (s : Sys n C) : (o : Op n) → Outcome (Sys n C × o.Resp)
  | .acquire l =>
    if s.lock l = some c then .panic "acquire"
    else if s.lock l = none then .ok ((s.setLock l (some c)).setNoff c (s.noff c + 1), ())
    else .blocked
  | .release l =>
    if s.lock l = some c then .ok (((s.setLock l none).setNoff c (s.noff c - 1)).setK (s.k.endKill l), ())
    else .panic "release"
  | .holding l => .ok (s, s.lock l = some c)
  | .noff => .ok (s, s.noff c)
  | .myproc => .ok (s, s.cproc c)
  | .setProc o => .ok (s.setCproc c o, ())
  | .swtchTo p => .ok (s.setCur c (some p), ())
  | .swtch => .ok (s.setCur c none, ())
  | .state p => .ok (s, s.k.state p)
  | .setState p st =>
    let k := s.k.setState p st
    .ok (s.setK (if st = .sleeping then k.setWindow p false else k), ())
  | .pid p => .ok (s, s.k.pid p)
  | .setPid p v => .ok (s.setK (s.k.setPid p v), ())
  | .parent p => .ok (s, s.k.parent p)
  | .setParent p o => .ok (s.setK (s.k.setParent p o), ())
  | .chan p => .ok (s, s.k.chan p)
  | .setChan p o => .ok (s.setK (s.k.setChan p o), ())
  | .killed p => .ok (s, s.k.killed p)
  | .setKilled p b =>
    let killing := s.k.killing p || (b && decide (s.lock (.proc p) = some c))
    .ok (s.setK ((s.k.setKilled p b).setKilling p killing), ())
  | .xstate p => .ok (s, s.k.xstate p)
  | .setXstate p v => .ok (s.setK (s.k.setXstate p v), ())
  | .nextpid => .ok (s, s.k.nextpid)
  | .setNextpid v => .ok (s.setK (s.k.setNextpid v), ())
  | .setContext p => .ok ((s.setProg (.proc p) forkret).setTrap (.proc p) none, ())
  | .freemem _ => .ok (s, ())
  | .kalloc => .ok (s, hint.isSome)
  | .copyout addr status =>
    match s.cur c, hint with
    | some p, some _ => .ok (s.setK (s.k.note (.stored p addr status)), true)
    | _, _ => .ok (s, false)
  | .copyoutByte _ => .ok (s, hint.isSome)
  | .copyinByte => .ok (s, hint)
  | .cond i => .ok (s, s.k.cond i)
  | .setCond i b => .ok (s.setK (s.k.setCond i b), ())
  | .pipe i => .ok (s, s.k.pipe i)
  | .setPipe i x => .ok (s.setK (s.k.setPipe i x), ())
  | .cons => .ok (s, s.k.cons)
  | .setCons x => .ok (s.setK (s.k.setCons x), ())
  | .testKilled p => .ok (s.setK (s.k.setWindow p (!s.k.killed p)), s.k.killed p)
  | .untest p => .ok (s.setK (s.k.setWindow p false), ())
  | .note ev => .ok (s.setK (s.k.note ev), ())
  | .woken _ => .ok (s, ())
  | .panic msg => .panic msg

/-- What happens next. -/
inductive Act (C : Type) where
  /-- A CPU carries out the next operation of its thread. -/
  | step (c : C) (hint : Option UInt8)
  /-- A process in user space makes a system call. -/
  | call (c : C) (call : Call)
  /-- A process in user space takes an unexpected trap. -/
  | fault (c : C)
  /-- A timer interrupt. -/
  | tick (c : C)
  /-- A device interrupt. -/
  | intr (c : C) (h : Handler)

/-- The CPU is in user space. -/
def inUser (s : Sys n C) (c : C) : Bool :=
  match s.cur c, s.trap (s.thr c), s.prog (s.thr c) with
  | some _, none, .ret .user => true
  | _, _, _ => false

variable [NeZero n]

/-- One operation of the code of a thread, or of the trap that it has taken. -/
def cpuStep (s : Sys n C) (c : C) (hint : Option UInt8) : Outcome (Sys n C) :=
  let t := s.thr c
  match s.trap t with
  | some (.ret ()) => .ok (s.setTrap t none)
  | some (.call o f) =>
    match exec c hint s o with
    | .ok (s', r) => .ok (s'.setTrap t (some (f r)))
    | .blocked => .blocked
    | .panic msg => .panic msg
  | none =>
    match s.prog t with
    | .ret .user => .blocked
    | .ret next => .ok (s.setProg t next.prog)
    | .call o f =>
      match exec c hint s o with
      | .ok (s', r) => .ok (s'.setProg t (f r))
      | .blocked => .blocked
      | .panic msg => .panic msg

/-- Users of conditions keep to the rule, and interrupt handlers do not sleep. -/
def Handler.ok : Handler → Bool
  | .console _ => true
  | .device _ cs => obeys false cs && cs.all (· ≠ .test)

def Call.ok : Call → Bool
  | .client _ cs => obeys false cs
  | _ => true

/-- The machine. -/
def cpus (s : Sys n C) : Act C → Outcome (Sys n C)
  | .step c hint => cpuStep s c hint
  | .call c call =>
    match s.cur c with
    | some p =>
      if inUser s c = true ∧ call.ok = true then
        .ok ((s.setK (s.k.note (.called p call))).setProg (.proc p) (usertrapCall call))
      else .blocked
    | none => .blocked
  | .fault c => if inUser s c then .ok (s.setProg (s.thr c) usertrapFault) else .blocked
  | .tick c =>
    if s.noff c = 0 ∧ (s.trap (s.thr c)).isNone then
      if inUser s c then .ok (s.setProg (s.thr c) usertrapTick)
      else .ok (s.setTrap (s.thr c) (some kerneltrapTick))
    else .blocked
  | .intr c h =>
    if s.noff c = 0 ∧ (s.trap (s.thr c)).isNone ∧ h.ok = true then
      if inUser s c then .ok (s.setProg (s.thr c) (do h.prog; usertrapret))
      else .ok (s.setTrap (s.thr c) (some h.prog))
    else .blocked

/-- The table when the first process has been set up. -/
def bootStore (cond : Nat → Bool) (pipe : Nat → Pipe) (cons : Cons) : Store n where
  state := fun p => if p = initproc then .runnable else .unused
  pid := fun p => if p = initproc then 1 else 0
  parent := fun _ => none
  chan := fun _ => none
  killed := fun _ => false
  xstate := fun _ => 0
  nextpid := 2
  cond := cond
  pipe := pipe
  cons := cons
  log := [.created initproc 1]
  window := fun _ => false
  killing := fun _ => false

/-- The CPUs enter their schedulers. -/
def boot (cond : Nat → Bool) (pipe : Nat → Pipe) (cons : Cons) : Sys n C where
  k := bootStore cond pipe cons
  lock := fun _ => none
  noff := fun _ => 0
  cproc := fun _ => none
  cur := fun _ => none
  prog := fun
    | .proc _ => forkret
    | .sched _ => return .scheduler
  trap := fun _ => none

end Machine

end Xv6.Sched
