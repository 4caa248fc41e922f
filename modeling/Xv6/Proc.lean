/-
Xv6/Proc.lean

Processes, CPUs and the functions of proc.c, as programs.

A kernel thread is a program over the operations `Op`: single reads and writes
of shared memory, `acquire`, `release` and `swtch`.  Each process has a thread on
its kernel stack, and each CPU has its scheduler thread.  A CPU executes the
operations of the thread on whose stack it is, one at a time; what the others
do in between is up to the schedule.

A loop without a bound ends each of its rounds with the place where to go on
(`Next`).  A trap is taken between two operations when no lock is held, on the
stack of the thread that the CPU is in.

The table has `n` processes, of which `initproc` is the first, and the CPUs are
the elements of an arbitrary type.  Memory, files and inodes belong to other
files: whether there is memory, and what is read from user space, is the hint of
the schedule.  `log` and `window` do nothing.  They record what has happened, so
that statements can speak of it.
-/
import Xv6.Lib.Prog

namespace Xv6.Sched

/-- The state of a process. -/
inductive PState where
  | unused
  | used
  | sleeping
  | runnable
  | running
  | zombie
  deriving DecidableEq

/-- What a process sleeps on: a process (in `wait`), one end of a pipe, the console, or one of
the conditions that stand for all other users of `sleep`. -/
inductive Chan (n : Nat) where
  | proc (p : Fin n)
  | pipeRead (i : Nat)
  | pipeWrite (i : Nat)
  | cons
  | cond (i : Nat)
  deriving DecidableEq

/-- The locks: `p->lock`, `wait_lock`, `pid_lock`, `pi->lock`, `cons.lock`, and the lock of a
condition. -/
inductive Lock (n : Nat) where
  | proc (p : Fin n)
  | wait
  | pid
  | pipe (i : Nat)
  | cons
  | cond (i : Nat)
  deriving DecidableEq

def PIPESIZE : Nat := 512

structure Pipe where
  data : Nat → UInt8
  nread : UInt32
  nwrite : UInt32
  readopen : Bool
  writeopen : Bool

def INPUT_BUF : Nat := 128

structure Cons where
  buf : Nat → UInt8
  r : UInt32
  w : UInt32
  e : UInt32

/-- What a user of a condition does while it has the lock. -/
inductive Crit where
  /-- Test the condition, and sleep if it is false. -/
  | test
  /-- Make the condition true or false. -/
  | put (b : Bool)
  | wakeup
  deriving DecidableEq

/-- A condition that was made true is followed by a wakeup; `due` says whether one is. -/
def obeys : Bool → List Crit → Bool
  | due, [] => !due
  | due, .test :: cs => obeys due cs
  | _, .put b :: cs => obeys b cs
  | _, .wakeup :: cs => obeys false cs

/-- A system call. -/
inductive Call where
  | fork
  | exit (status : Int32)
  | wait (addr : UInt64)
  | kill (pid : Int32)
  | piperead (i m : Nat)
  | pipewrite (i m : Nat)
  | consoleread (m : Nat)
  | client (i : Nat) (cs : List Crit)
  deriving DecidableEq

/-- What the log records. -/
inductive Event (n : Nat) where
  /-- A slot of the table has become a process. -/
  | created (q : Fin n) (pid : Int32)
  /-- `fork` has failed after that. -/
  | aborted (q : Fin n)
  | exited (q : Fin n) (status : Int32)
  /-- A process has been collected by its parent `p`. -/
  | waited (p : Fin n) (addr : UInt64) (q : Fin n) (pid status : Int32)
  /-- `kill(pid)` has found a process. -/
  | killed (q : Fin n) (pid : Int32)
  /-- A process has taken an unexpected trap. -/
  | trapped (q : Fin n)
  | called (p : Fin n) (call : Call)
  /-- An exit status has been copied out to user space. -/
  | stored (p : Fin n) (addr : UInt64) (status : Int32)
  deriving DecidableEq

/-- Where a thread goes on when a round of a loop, or a call, is over. -/
inductive Next (n : Nat) where
  /-- In user space. -/
  | user
  /-- In `usertrap`, after a system call. -/
  | sysret (v : Int32)
  | wait (p : Fin n) (addr : UInt64)
  | piperead (p : Fin n) (i m : Nat)
  | pipewrite (p : Fin n) (i m k : Nat)
  | consoleread (p : Fin n) (m target : Nat)
  | scheduler

/-! ### Operations -/

/-- What a thread does in one step. -/
inductive Op (n : Nat) where
  -- spinlock.c
  | acquire (l : Lock n)
  | release (l : Lock n)
  | holding (l : Lock n)
  | noff
  -- the CPU
  /-- `c->proc`. -/
  | myproc
  | setProc (o : Option (Fin n))
  /-- `swtch(&c->context, &p->context)`. -/
  | swtchTo (p : Fin n)
  /-- `swtch(&p->context, &c->context)`. -/
  | swtch
  -- the fields of a process
  | state (p : Fin n)
  | setState (p : Fin n) (st : PState)
  | pid (p : Fin n)
  | setPid (p : Fin n) (v : Int32)
  | parent (p : Fin n)
  | setParent (p : Fin n) (o : Option (Fin n))
  | chan (p : Fin n)
  | setChan (p : Fin n) (o : Option (Chan n))
  | killed (p : Fin n)
  | setKilled (p : Fin n) (b : Bool)
  | xstate (p : Fin n)
  | setXstate (p : Fin n) (v : Int32)
  | nextpid
  | setNextpid (v : Int32)
  /-- Set up the context to start executing at `forkret`. -/
  | setContext (p : Fin n)
  /-- Free the trapframe and the page table. -/
  | freemem (p : Fin n)
  -- memory
  /-- Is there memory? -/
  | kalloc
  | copyout (addr : UInt64) (status : Int32)
  /-- `copyout` of one byte, to an address that does not matter here. -/
  | copyoutByte (b : UInt8)
  | copyinByte
  -- what the other locks protect
  | cond (i : Nat)
  | setCond (i : Nat) (b : Bool)
  | pipe (i : Nat)
  | setPipe (i : Nat) (x : Pipe)
  | cons
  | setCons (x : Cons)
  -- what statements speak of
  /-- Read `p->killed` in the loop of a call that may sleep. -/
  | testKilled (p : Fin n)
  /-- The call does not go to sleep on this test. -/
  | untest (p : Fin n)
  | note (ev : Event n)
  /-- `sleep` on a condition has returned. -/
  | woken (i : Nat)
  | panic (msg : String)

/-- What comes back from an operation. -/
@[reducible] def Op.Resp {n : Nat} : Op n → Type
  | .holding _ | .killed _ | .testKilled _ | .kalloc | .copyout _ _ | .copyoutByte _ | .cond _ => Bool
  | .noff => Nat
  | .myproc | .parent _ => Option (Fin n)
  | .state _ => PState
  | .pid _ | .xstate _ | .nextpid => Int32
  | .chan _ => Option (Chan n)
  | .copyinByte => Option UInt8
  | .pipe _ => Pipe
  | .cons => Cons
  | .panic _ => Empty
  | _ => Unit

/-- Code of the kernel. -/
abbrev KProg (n : Nat) (α : Type) : Type := Prog (Op n) Op.Resp α

section Programs

variable {n : Nat} {α : Type}

/-- Stop the system. -/
def panic (msg : String) : KProg n α := .call (.panic msg) nofun

/-- Issue one operation. -/
def issue (o : Op n) : KProg n o.Resp := .op o

@[simp] theorem wp_issue {M : Type} {Φ : Prog.Spec (Op n) Op.Resp M} {o : Op n} {m : M}
    {Q : o.Resp → M → Prop} : Prog.wp (α := no_index o.Resp) Φ (issue o) m Q ↔ Φ o m Q := Iff.rfl

/-- `myproc()` where the code goes on to use the process. -/
def curproc : KProg n (Fin n) := do
  match ← issue .myproc with
  | some p => return p
  | none => panic "kerneltrap"

/-- A loop over the process table. -/
def each (f : Fin n → KProg n Unit) : List (Fin n) → KProg n Unit
  | [] => return ()
  | p :: ps => do
    f p
    each f ps

/-! ### Allocation -/

def allocpid : KProg n Int32 := do
  issue (.acquire .pid)
  let pid ← issue .nextpid
  issue (.setNextpid (pid + 1))
  issue (.release .pid)
  return pid

/-- Free a proc structure and the data hanging from it, including user pages.  `p->lock` must
be held. -/
def freeproc (p : Fin n) : KProg n Unit := do
  issue (.freemem p)
  issue (.setPid p 0)
  issue (.setParent p none)
  issue (.setChan p none)
  issue (.setKilled p false)
  issue (.setXstate p 0)
  issue (.setState p .unused)

/-- What `allocproc` and `fork` do when they run out of memory. -/
def abort (p : Fin n) : KProg n Unit := do
  issue (.note (.aborted p))
  freeproc p
  issue (.release (.proc p))

/-- `allocproc`, after an UNUSED proc has been found. -/
def found (p : Fin n) : KProg n (Option (Fin n)) := do
  let pid ← allocpid
  issue (.setPid p pid)
  issue (.note (.created p pid))
  issue (.setState p .used)
  -- Allocate a trapframe page.
  let ok ← issue .kalloc
  if ok then
    -- An empty user page table.
    let ok ← issue .kalloc
    if ok then
      issue (.setContext p)
      return some p
    else
      abort p
      return none
  else
    abort p
    return none

/-- Look in the process table for an UNUSED proc.  If found, initialize state required to run
in the kernel, and return with `p->lock` held. -/
def allocproc : List (Fin n) → KProg n (Option (Fin n))
  | [] => return none
  | p :: ps => do
    issue (.acquire (.proc p))
    let st ← issue (.state p)
    if st = .unused then found p
    else
      issue (.release (.proc p))
      allocproc ps

/-! ### Switching -/

/-- Switch to scheduler.  Must hold only `p->lock` and have changed `proc->state`. -/
def sched : KProg n Unit := do
  let p ← curproc
  let held ← issue (.holding (.proc p))
  if held then
    let noff ← issue .noff
    if noff ≠ 1 then panic "sched locks"
    else
      let st ← issue (.state p)
      if st = .running then panic "sched running"
      else issue .swtch
  else panic "sched p->lock"

/-- Give up the CPU for one scheduling round. -/
def yield : KProg n Unit := do
  let p ← curproc
  issue (.acquire (.proc p))
  issue (.setState p .runnable)
  sched
  issue (.release (.proc p))

/-- Atomically release lock and sleep on chan.  Reacquires lock when awakened. -/
def sleep (ch : Chan n) (lk : Lock n) : KProg n Unit := do
  let p ← curproc
  issue (.acquire (.proc p))
  issue (.release lk)
  -- Go to sleep.
  issue (.setChan p (some ch))
  issue (.setState p .sleeping)
  sched
  -- Tidy up.
  issue (.setChan p none)
  -- Reacquire original lock.
  issue (.release (.proc p))
  issue (.acquire lk)

/-- The body of the loop of `wakeup`. -/
def wakeOne (ch : Option (Chan n)) (p : Fin n) : KProg n Unit := do
  let me ← issue .myproc
  if me ≠ some p then
    issue (.acquire (.proc p))
    let st ← issue (.state p)
    (if st = .sleeping then do
      let c ← issue (.chan p)
      if c = ch then issue (.setState p .runnable) else return ()
    else return ())
    issue (.release (.proc p))
  else return ()

/-- Wake up all processes sleeping on chan.  Must be called without any `p->lock`. -/
def wakeup (ch : Option (Chan n)) : KProg n Unit := each (wakeOne ch) (List.finRange n)

/-- The body of the loop of `scheduler`. -/
def schedOne (p : Fin n) : KProg n Unit := do
  issue (.acquire (.proc p))
  let st ← issue (.state p)
  (if st = .runnable then do
    -- Switch to chosen process.  It is the process's job to release its lock and then
    -- reacquire it before jumping back to us.
    issue (.setState p .running)
    issue (.setProc (some p))
    issue (.swtchTo p)
    -- Process is done running for now.
    issue (.setProc none)
  else return ())
  issue (.release (.proc p))

/-- One round of the loop of `scheduler`. -/
def scheduler : KProg n (Next n) := do
  each schedOne (List.finRange n)
  return .scheduler

/-- A fork child's very first scheduling by `scheduler` will swtch to `forkret`. -/
def forkret : KProg n (Next n) := do
  let p ← curproc
  issue (.release (.proc p))
  return .user

/-! ### System calls -/

/-- Create a new process, copying the parent. -/
def fork : KProg n (Next n) := do
  let p ← curproc
  match ← allocproc (List.finRange n) with
  | none => return .sysret (-1)
  | some np =>
    -- Copy user memory from parent to child.
    let ok ← issue .kalloc
    if ok then
      let pid ← issue (.pid np)
      issue (.release (.proc np))
      issue (.acquire .wait)
      issue (.setParent np (some p))
      issue (.release .wait)
      issue (.acquire (.proc np))
      issue (.setState np .runnable)
      issue (.release (.proc np))
      return .sysret pid
    else
      abort np
      return .sysret (-1)

/-- Kill the process with the given pid.  The victim won't exit until it tries to return to
user space. -/
def kill (pid : Int32) : List (Fin n) → KProg n (Next n)
  | [] => return .sysret (-1)
  | p :: ps => do
    issue (.acquire (.proc p))
    let v ← issue (.pid p)
    if v = pid then
      issue (.note (.killed p pid))
      issue (.setKilled p true)
      let st ← issue (.state p)
      -- Wake process from sleep().
      (if st = .sleeping then issue (.setState p .runnable) else return ())
      issue (.release (.proc p))
      return .sysret 0
    else
      issue (.release (.proc p))
      kill pid ps

variable [NeZero n]

/-- The first process. -/
def initproc : Fin n := 0

/-- The body of the loop of `reparent`. -/
def reparentOne (p pp : Fin n) : KProg n Unit := do
  let o ← issue (.parent pp)
  if o = some p then
    issue (.setParent pp (some initproc))
    wakeup (some (.proc initproc))
  else return ()

/-- Pass p's abandoned children to init.  Caller must hold `wait_lock`. -/
def reparent (p : Fin n) : KProg n Unit := each (reparentOne p) (List.finRange n)

/-- Exit the current process.  Does not return.  An exited process remains in the zombie state
until its parent calls `wait`. -/
def exit (status : Int32) : KProg n (Next n) := do
  let p ← curproc
  if p = initproc then panic "init exiting"
  else
    issue (.acquire .wait)
    -- Give any children to init.
    reparent p
    -- Parent might be sleeping in wait().
    let pp ← issue (.parent p)
    wakeup (pp.map .proc)
    issue (.acquire (.proc p))
    issue (.setXstate p status)
    issue (.note (.exited p status))
    issue (.setState p .zombie)
    issue (.release .wait)
    -- Jump into the scheduler, never to return.
    sched
    panic "zombie exit"

/-- `wait`, after an exited child has been found. -/
def collect (p : Fin n) (addr : UInt64) (np : Fin n) : KProg n (Next n) := do
  let pid ← issue (.pid np)
  let status ← issue (.xstate np)
  let ok ← (if addr ≠ 0 then issue (.copyout addr status) else pure true)
  if ok then
    issue (.note (.waited p addr np pid status))
    freeproc np
    issue (.release (.proc np))
    issue (.release .wait)
    return .sysret pid
  else
    issue (.release (.proc np))
    issue (.release .wait)
    return .sysret (-1)

/-- The scan of `wait` through the table, looking for exited children, and what comes after it. -/
def waitScan (p : Fin n) (addr : UInt64) : Bool → List (Fin n) → KProg n (Next n)
  | havekids, [] => do
    -- No point waiting if we don't have any children.
    let stop ← (if havekids then issue (.testKilled p) else pure true)
    if stop then
      issue (.release .wait)
      return .sysret (-1)
    else
      -- Wait for a child to exit.
      sleep (.proc p) .wait
      return .wait p addr
  | havekids, np :: ps => do
    let o ← issue (.parent np)
    if o = some p then
      -- make sure the child isn't still in exit() or swtch().
      issue (.acquire (.proc np))
      let st ← issue (.state np)
      if st = .zombie then collect p addr np
      else
        issue (.release (.proc np))
        waitScan p addr true ps
    else waitScan p addr havekids ps

/-- Wait for a child process to exit and return its pid.  Return -1 if this process has no
children. -/
def wait (addr : UInt64) : KProg n (Next n) := do
  let p ← curproc
  issue (.acquire .wait)
  return .wait p addr

/-! ### Pipes -/

/-- The loop of `piperead` that copies. -/
def pipereadCopy (i : Nat) : Nat → Int32 → KProg n Int32
  | 0, k => return k
  | m + 1, k => do
    let pi ← issue (.pipe i)
    if pi.nread = pi.nwrite then return k
    else
      issue (.setPipe i { pi with nread := pi.nread + 1 })
      let ok ← issue (.copyoutByte (pi.data (pi.nread.toNat % PIPESIZE)))
      if ok then pipereadCopy i m (k + 1) else return k

/-- `piperead`, from the test of its first loop on. -/
def pipereadLoop (p : Fin n) (i m : Nat) : KProg n (Next n) := do
  let pi ← issue (.pipe i)
  if pi.nread = pi.nwrite ∧ pi.writeopen = true then
    let killed ← issue (.testKilled p)
    if killed then
      issue (.release (.pipe i))
      return .sysret (-1)
    else
      sleep (.pipeRead i) (.pipe i)
      return .piperead p i m
  else
    let k ← pipereadCopy i m 0
    wakeup (some (.pipeWrite i))
    issue (.release (.pipe i))
    return .sysret k

def piperead (i m : Nat) : KProg n (Next n) := do
  let p ← curproc
  issue (.acquire (.pipe i))
  return .piperead p i m

/-- `pipewrite`, after its loop. -/
def pipewriteEnd (i k : Nat) : KProg n (Next n) := do
  wakeup (some (.pipeRead i))
  issue (.release (.pipe i))
  return .sysret (Int32.ofNat k)

/-- A round of the loop of `pipewrite`. -/
def pipewriteLoop (p : Fin n) (i m k : Nat) : KProg n (Next n) := do
  if k < m then
    let pi ← issue (.pipe i)
    let stop ← (if pi.readopen then issue (.testKilled p) else pure true)
    if stop then
      issue (.release (.pipe i))
      return .sysret (-1)
    else if pi.nwrite = pi.nread + UInt32.ofNat PIPESIZE then
      wakeup (some (.pipeRead i))
      sleep (.pipeWrite i) (.pipe i)
      return .pipewrite p i m k
    else
      issue (.untest p)
      match ← issue .copyinByte with
      | none => pipewriteEnd i k
      | some b =>
        issue (.setPipe i { pi with
          data := Function.update pi.data (pi.nwrite.toNat % PIPESIZE) b, nwrite := pi.nwrite + 1 })
        return .pipewrite p i m (k + 1)
  else pipewriteEnd i k

def pipewrite (i m : Nat) : KProg n (Next n) := do
  let p ← curproc
  issue (.acquire (.pipe i))
  return .pipewrite p i m 0

/-! ### The console -/

/-- Control-x. -/
def ctrl (c : Char) : UInt8 := c.toUInt8 - 64

/-- A round of the outer loop of `consoleread`, or of the inner one. -/
def consolereadLoop (p : Fin n) (m target : Nat) : KProg n (Next n) := do
  if m = 0 then
    issue (.release .cons)
    return .sysret (Int32.ofNat target)
  else
    let cons ← issue .cons
    if cons.r = cons.w then
      let killed ← issue (.testKilled p)
      if killed then
        issue (.release .cons)
        return .sysret (-1)
      else
        sleep .cons .cons
        return .consoleread p m target
    else
      let c := cons.buf (cons.r.toNat % INPUT_BUF)
      if c = ctrl 'D' then
        -- Save ^D for next time, to make sure caller gets a 0-byte result.
        (if m < target then return () else issue (.setCons { cons with r := cons.r + 1 }))
        issue (.release .cons)
        return .sysret (Int32.ofNat (target - m))
      else
        issue (.setCons { cons with r := cons.r + 1 })
        let ok ← issue (.copyoutByte c)
        if ok = true ∧ c ≠ 10 then return .consoleread p (m - 1) target
        else
          issue (.release .cons)
          return .sysret (Int32.ofNat (if ok then target - (m - 1) else target - m))

def consoleread (m : Nat) : KProg n (Next n) := do
  let p ← curproc
  issue (.acquire .cons)
  return .consoleread p m m

/-- The loop of `consoleintr` that kills a line; it ends after `e - w` rounds. -/
def killLine : Nat → Cons → Cons
  | 0, x => x
  | m + 1, x =>
    if x.e ≠ x.w ∧ x.buf ((x.e - 1).toNat % INPUT_BUF) ≠ 10 then killLine m { x with e := x.e - 1 } else x

/-- The console input interrupt handler. -/
def consoleintr (c : UInt8) : KProg n Unit := do
  issue (.acquire .cons)
  let x ← issue .cons
  (if c = ctrl 'P' then return ()
  else if c = ctrl 'U' then issue (.setCons (killLine (x.e - x.w).toNat x))
  else if c = ctrl 'H' ∨ c = 127 then
    issue (.setCons (if x.e ≠ x.w then { x with e := x.e - 1 } else x))
  else if c ≠ 0 ∧ (x.e - x.r).toNat < INPUT_BUF then do
    let c := if c = 13 then 10 else c
    let x := { x with buf := Function.update x.buf (x.e.toNat % INPUT_BUF) c, e := x.e + 1 }
    if c = 10 ∨ c = ctrl 'D' ∨ x.e = x.r + UInt32.ofNat INPUT_BUF then do
      issue (.setCons { x with w := x.e })
      wakeup (some .cons)
    else issue (.setCons x)
  else return ())
  issue (.release .cons)

/-! ### Conditions -/

/-- What a user of condition `i` does with the lock. -/
def crit (i : Nat) : Crit → KProg n Unit
  | .test => do
    let b ← issue (.cond i)
    if b then return ()
    else
      sleep (.cond i) (.cond i)
      issue (.woken i)
  | .put b => issue (.setCond i b)
  | .wakeup => wakeup (some (.cond i))

def crits (i : Nat) : List Crit → KProg n Unit
  | [] => return ()
  | c :: cs => do
    crit i c
    crits i cs

/-- A user of condition `i`. -/
def client (i : Nat) (cs : List Crit) : KProg n Unit := do
  issue (.acquire (.cond i))
  crits i cs
  issue (.release (.cond i))

/-! ### Traps -/

def Call.prog : Call → KProg n (Next n)
  | .fork => Sched.fork
  | .exit status => Sched.exit status
  | .wait addr => Sched.wait addr
  | .kill pid => Sched.kill pid (List.finRange n)
  | .piperead i m => Sched.piperead i m
  | .pipewrite i m => Sched.pipewrite i m
  | .consoleread m => Sched.consoleread m
  | .client i cs => do
    Sched.client i cs
    return .sysret 0

/-- The end of `usertrap`. -/
def usertrapret : KProg n (Next n) := do
  let p ← curproc
  let killed ← issue (.killed p)
  if killed then exit (-1) else return .user

/-- `usertrap` for a system call. -/
def usertrapCall (call : Call) : KProg n (Next n) := do
  let p ← curproc
  let killed ← issue (.killed p)
  if killed then exit (-1) else call.prog

/-- `usertrap` for an unexpected trap. -/
def usertrapFault : KProg n (Next n) := do
  let p ← curproc
  issue (.note (.trapped p))
  issue (.setKilled p true)
  usertrapret

/-- `usertrap` for a timer interrupt. -/
def usertrapTick : KProg n (Next n) := do
  let p ← curproc
  let killed ← issue (.killed p)
  if killed then exit (-1)
  else
    yield
    return .user

/-- `kerneltrap` for a timer interrupt. -/
def kerneltrapTick : KProg n Unit := do
  match ← issue .myproc with
  | none => return ()
  | some p =>
    let st ← issue (.state p)
    if st = .running then yield else return ()

/-- A device interrupt: from the console, or from a device that has to do with a condition. -/
inductive Handler where
  | console (c : UInt8)
  | device (i : Nat) (cs : List Crit)

def Handler.prog : Handler → KProg n Unit
  | .console c => consoleintr c
  | .device i cs => client i cs

/-- The code that starts at a place. -/
def Next.prog : Next n → KProg n (Next n)
  | .user => return .user
  | .sysret _ => usertrapret
  | .wait p addr => waitScan p addr false (List.finRange n)
  | .piperead p i m => pipereadLoop p i m
  | .pipewrite p i m k => pipewriteLoop p i m k
  | .consoleread p m target => consolereadLoop p m target
  | .scheduler => Sched.scheduler

end Programs

end Xv6.Sched
