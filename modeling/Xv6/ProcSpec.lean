/-
Xv6/ProcSpec.lean

What a kernel thread has to know at each operation.

The rules (`spec`) speak of the view of one thread, `Know`: which locks it holds,
where it is in a switch, and a copy of the store that is exact on what its locks
protect.  `p->lock` protects the state of a process, its pid, channel and exit
status, and `wait_lock` protects who is whose parent.  To acquire a lock is to
learn what it protects, to release it is to have put that in order.

Besides the store there are notes that a thread makes while it holds a lock
(`Aux`): which processes are known not to be asleep on a channel (`passed`), which
are known not to be zombies (`nz`).  A process is asleep on a channel from the
moment on when `sleep` has released the channel's lock (`drowsy`).

ProcInv.lean shows that the rules are sound.  The proofs that the code keeps to
them are in ProcCode.lean.
-/
import Xv6.Cpu

namespace Xv6.Sched

variable {n : Nat}

/-! ### What the log says -/

/-- The life of a slot of the table. -/
inductive Stage where
  | free
  | live (pid : Int32)
  | done (pid status : Int32)
  deriving DecidableEq

/-- The life of slot `q` up to now, if the log is in order: a process is created, and either
`fork` fails, or it exits and is waited for once, with its pid and its status. -/
def life (q : Fin n) : List (Event n) → Option Stage
  | [] => some .free
  | .created q' pid :: l =>
    if q' = q then if life q l = some .free then some (.live pid) else none else life q l
  | .aborted q' :: l =>
    if q' = q then
      match life q l with
      | some (.live _) => some .free
      | _ => none
    else life q l
  | .exited q' status :: l =>
    if q' = q then
      match life q l with
      | some (.live pid) => some (.done pid status)
      | _ => none
    else life q l
  | .waited _ _ q' pid status :: l =>
    if q' = q then if life q l = some (.done pid status) then some .free else none else life q l
  | _ :: l => life q l

/-- The pid of the latest process in slot `q`. -/
def born (q : Fin n) : List (Event n) → Option Int32
  | [] => none
  | .created q' pid :: l => if q' = q then some pid else born q l
  | _ :: l => born q l

/-- Since the latest process in slot `q` was created, `kill(pid)` has found it, or it has taken an
unexpected trap. -/
def Caused (q : Fin n) (pid : Int32) : List (Event n) → Prop
  | [] => False
  | .created q' _ :: l => q' ≠ q ∧ Caused q pid l
  | .killed q' v :: l => q' = q ∧ v = pid ∨ Caused q pid l
  | .trapped q' :: l => q' = q ∨ Caused q pid l
  | _ :: l => Caused q pid l

/-- There is a reason why `p->killed` may be set. -/
def Blamed (q : Fin n) (l : List (Event n)) : Prop := ∃ pid, born q l = some pid ∧ Caused q pid l

/-- The system call that process `p` has made last. -/
def calling (p : Fin n) : List (Event n) → Option Call
  | [] => none
  | .called p' call :: l => if p' = p then some call else calling p l
  | _ :: l => calling p l

/-- The pid of the child that process `p` has collected in its latest system call. -/
def result (p : Fin n) : List (Event n) → Option Int32
  | [] => none
  | .called p' _ :: l => if p' = p then none else result p l
  | .waited p' _ _ pid _ :: l => if p' = p then some pid else result p l
  | _ :: l => result p l

/-- The exit status that process `p` has copied out last, and where to. -/
def lastStored (p : Fin n) : List (Event n) → Option (UInt64 × Int32)
  | [] => none
  | .stored p' addr status :: l => if p' = p then some (addr, status) else lastStored p l
  | _ :: l => lastStored p l

/-- The log and the fields of a process agree. -/
def Settled (k : Store n) (q : Fin n) : Prop :=
  match k.state q with
  | .unused => life q k.log = some .free ∧ k.pid q = 0
  | .zombie => life q k.log = some (.done (k.pid q) (k.xstate q))
  | _ => life q k.log = some (.live (k.pid q))

/-! ### The view of a thread -/

/-- Where a thread is in a switch. -/
inductive Phase (n : Nat) where
  /-- A process: it is RUNNING. -/
  | run
  /-- A process: it is not RUNNING any more and is going to switch to the scheduler. -/
  | leave
  /-- A scheduler: it has no process. -/
  | idle
  /-- A scheduler: it has made `p` RUNNING. -/
  | picked (p : Fin n)
  /-- A scheduler: it has set `c->proc` and is going to switch. -/
  | go (p : Fin n)
  /-- A scheduler: it is back from `p`. -/
  | back (p : Fin n)

/-- The process that the CPU of a scheduler has. -/
def Phase.proc : Phase n → Option (Fin n)
  | .go p | .back p => some p
  | _ => none

/-- What a thread knows without locks. -/
@[ext]
structure Priv (n : Nat) where
  held : List (Lock n)
  phase : Phase n
  /-- The process that is being set up. -/
  child : Option (Fin n)
  /-- Its context is set. -/
  ctx : Bool
  /-- Its parent is set. -/
  linked : Bool
  /-- The lock that `sleep` has released, until the process is SLEEPING. -/
  drowsy : Option (Lock n)
  /-- The process has found `p->killed` to be 0 and is going to sleep. -/
  tested : Bool
  /-- The sleeping process that is to be woken up since its `killed` was set. -/
  wakes : Option (Fin n)
  /-- The process whose `killed` may be set. -/
  blames : Option (Fin n)

/-- What a thread knows while it has a lock. -/
structure Aux (n : Nat) where
  /-- Not a ZOMBIE (`wait_lock`). -/
  nz : Fin n → Bool
  /-- Not asleep on the channel (the lock of the channel). -/
  passed : Chan n → Fin n → Bool
  /-- `initproc` may have got a ZOMBIE child while asleep (`wait_lock`). -/
  dirty : Bool
  /-- The ZOMBIE that is being freed (`wait_lock`). -/
  freeing : Option (Fin n)

/-- The view of a thread. -/
structure Know (n : Nat) where
  g : Priv n
  k : Store n
  a : Aux n

namespace Priv

variable (g : Priv n)

@[simps] def setHeld (l : List (Lock n)) : Priv n := { g with held := l }

@[simps] def setPhase (x : Phase n) : Priv n := { g with phase := x }

@[simps] def setChild (o : Option (Fin n)) (ctx linked : Bool) : Priv n :=
  { g with child := o, ctx := ctx, linked := linked }

@[simps] def setDrowsy (o : Option (Lock n)) : Priv n := { g with drowsy := o }

@[simps] def setTested (b : Bool) : Priv n := { g with tested := b }

@[simps] def setWakes (o : Option (Fin n)) : Priv n := { g with wakes := o }

@[simps] def setBlames (o : Option (Fin n)) : Priv n := { g with blames := o }

/-- A process that has not started yet. -/
def fresh : Priv n where
  held := []
  phase := .run
  child := none
  ctx := false
  linked := false
  drowsy := none
  tested := false
  wakes := none
  blames := none

end Priv

/-- The lock that goes with a channel. -/
def lockOf : Chan n → Lock n
  | .proc _ => .wait
  | .pipeRead i | .pipeWrite i => .pipe i
  | .cons => .cons
  | .cond i => .cond i

/-- A sleep on the channel ends when the process is killed. -/
def killable : Chan n → Bool
  | .cond _ => false
  | _ => true

namespace Aux

variable (a : Aux n)

/-- A process is known not to be a ZOMBIE. -/
@[simps] def setNz (q : Fin n) : Aux n := { a with nz := Function.update a.nz q true }

/-- Nothing is known about a process any more. -/
@[simps] def clearNz (q : Fin n) : Aux n := { a with nz := Function.update a.nz q false }

@[simps] def setDirty (b : Bool) : Aux n := { a with dirty := b }

@[simps] def setFreeing (o : Option (Fin n)) : Aux n := { a with freeing := o }

/-- The notes of a thread that has just acquired a lock.  If a condition is true then nobody is
asleep on it. -/
def lock (k : Store n) (l : Lock n) : Aux n where
  nz := if l = .wait then fun _ => false else a.nz
  passed := fun ch q =>
    if lockOf ch = l then
      match l with
      | .cond i => k.cond i
      | _ => false
    else a.passed ch q
  dirty := if l = .wait then false else a.dirty
  freeing := if l = .wait then none else a.freeing

/-- What is known about process `q` when its lock is released. -/
def pass (held : List (Lock n)) (k : Store n) (q : Fin n) : Aux n :=
  { a with
    passed := fun ch q' =>
      if q' = q ∧ lockOf ch ∈ held ∧ ¬ (k.state q = .sleeping ∧ k.chan q = some ch) then true
      else a.passed ch q' }

/-- The notes of a thread that releases a lock. -/
def unlock (held : List (Lock n)) (k : Store n) : Lock n → Aux n
  | .proc q => a.pass held k q
  | _ => a

end Aux

/-! ### What locks protect -/

/-- The two stores agree on what the lock protects. -/
def SameStore (k k' : Store n) : Lock n → Prop
  | .proc q =>
    k.state q = k'.state q ∧ k.pid q = k'.pid q ∧ k.chan q = k'.chan q ∧ k.xstate q = k'.xstate q ∧
      life q k.log = life q k'.log ∧ (k.state q ≠ .running → k.killed q = k'.killed q)
  | .wait => k.parent = k'.parent
  | .cond i => k.cond i = k'.cond i
  | _ => True

/-- The notes agree. -/
structure SameAux (a a' : Aux n) (l : Lock n) : Prop where
  passed : ∀ ch, lockOf ch = l → a.passed ch = a'.passed ch
  nz : l = .wait → a.nz = a'.nz
  dirty : l = .wait → a.dirty = a'.dirty
  freeing : l = .wait → a.freeing = a'.freeing

/-- The two stores agree on what a process alone records. -/
structure Mine (who : Option (Fin n)) (k k' : Store n) : Prop where
  calling : ∀ p, who = some p → calling p k.log = calling p k'.log
  result : ∀ p, who = some p → result p k.log = result p k'.log
  stored : ∀ p, who = some p → lastStored p k.log = lastStored p k'.log

/-- The two views agree on what a thread knows exactly. -/
structure Agree (who : Option (Fin n)) (held : List (Lock n)) (k k' : Store n) (a a' : Aux n) : Prop where
  store : ∀ l ∈ held, SameStore k k' l
  aux : ∀ l ∈ held, SameAux a a' l
  mine : Mine who k k'

/-! ### The rules -/

/-- A running process has its own lock and releases another one, as `sleep` does. -/
def Commits (who : Option (Fin n)) (g : Priv n) : Prop :=
  ∃ p, who = some p ∧ .proc p ∈ g.held ∧ g.phase = .run

/-- What comes with a lock. -/
def Gains (strict : Prop) (who : Option (Fin n)) (g : Priv n) (k : Store n) : Lock n → Prop
  | .proc q =>
    Settled k q ∧ (who = some q → k.state q = .running) ∧ (g.child = some q → k.state q = .used) ∧
      (strict → k.state q = .unused → k.killed q = false)
  | _ => True

variable [NeZero n]

/-- What is to be in order when a lock is released. -/
def Gives (who : Option (Fin n)) (m : Know n) : Lock n → Prop
  | .proc q =>
    Settled m.k q ∧ (who = some q → m.g.phase = .run ∧ m.g.drowsy = none) ∧
      (who = none → m.g.phase = .idle) ∧ m.g.wakes ≠ some q ∧ (m.g.blames = some q → who = some q)
  | .wait =>
    (m.a.dirty = true → m.a.passed (.proc initproc) initproc = true) ∧ m.a.freeing = none ∧
      (Commits who m.g → ∀ p q, who = some p → m.k.parent q = some p → m.a.nz q = true)
  | .cond i =>
    (m.k.cond i = true → (∀ q, m.a.passed (.cond i) q = true ∨ who = some q) ∧
      (who ≠ none → m.g.phase = .run ∧ m.g.drowsy = none)) ∧
      (Commits who m.g → m.k.cond i = false)
  | _ => True

open Classical in
/-- The thread when it has released a lock. -/
noncomputable def Priv.unlock (g : Priv n) (who : Option (Fin n)) (l : Lock n) : Priv n :=
  let g' := g.setHeld (g.held.erase l)
  if Commits who g ∧ who.map Lock.proc ≠ some l then g'.setDrowsy (some l) else g'

/-- A running process may go to sleep on a channel. -/
structure SleepOk (g : Priv n) (q : Fin n) (ch : Chan n) : Prop where
  drowsy : g.drowsy = some (lockOf ch)
  tested : killable ch = true → g.tested = true
  self : ∀ r, ch = .proc r → r = q

/-- **How the state of a process changes**, and what its thread, or another one, has to know. -/
inductive Moves (who : Option (Fin n)) (m : Know n) (q : Fin n) : PState → Priv n → Aux n → Prop
  | alloc (hst : m.k.state q = .unused) (hlife : ∃ pid, life q m.k.log = some (.live pid))
      (hwho : who ≠ none) (hself : who ≠ some q) (hchild : m.g.child = none) :
      Moves who m q .used (m.g.setChild (some q) false false) m.a
  | abort (hst : m.k.state q = .used) (hchild : m.g.child = some q) (hlinked : m.g.linked = false)
      (hkill : m.k.killed q = false) (hblames : m.g.blames = none) :
      Moves who m q .unused (m.g.setChild none false false) m.a
  | reap (hst : m.k.state q = .zombie) (hwait : .wait ∈ m.g.held) (hfree : m.a.freeing = some q)
      (hpar : m.k.parent q = none) (hkill : m.k.killed q = false) (hblames : m.g.blames = none) :
      Moves who m q .unused m.g (m.a.setFreeing none)
  | wake (hst : m.k.state q = .sleeping) (hw : m.g.wakes = none ∨ m.g.wakes = some q) :
      Moves who m q .runnable (m.g.setWakes none) m.a
  | birth (hchild : m.g.child = some q) (hctx : m.g.ctx = true) (hlinked : m.g.linked = true) :
      Moves who m q .runnable (m.g.setChild none false false) m.a
  | yield (hself : who = some q) (hrun : m.g.phase = .run) (hdrowsy : m.g.drowsy = none) :
      Moves who m q .runnable (m.g.setPhase .leave) m.a
  | pick (hself : who = none) (hidle : m.g.phase = .idle) (hst : m.k.state q = .runnable) :
      Moves who m q .running (m.g.setPhase (.picked q)) m.a
  | sleep (ch : Chan n) (hself : who = some q) (hrun : m.g.phase = .run) (hch : m.k.chan q = some ch)
      (hok : SleepOk m.g q ch) :
      Moves who m q .sleeping (((m.g.setPhase .leave).setDrowsy none).setTested false) m.a
  | exit (hself : who = some q) (hrun : m.g.phase = .run) (hdrowsy : m.g.drowsy = none)
      (hinit : q ≠ initproc) (hwait : .wait ∈ m.g.held) (hchild : m.g.child = none)
      (htested : m.g.tested = false) (hblames : m.g.blames = none)
      (hkids : ∀ r, m.k.parent r ≠ some q)
      (hpar : ∀ r, m.k.parent q = some r → m.a.passed (.proc r) r = true) :
      Moves who m q .zombie (m.g.setPhase .leave) (m.a.clearNz q)

/-- How the parent of a process changes. -/
inductive Adopts (who : Option (Fin n)) (m : Know n) (q : Fin n) :
    Option (Fin n) → Priv n → Aux n → Prop
  | link (p : Fin n) (hself : who = some p) (hrun : m.g.phase = .run) (hwait : .wait ∈ m.g.held)
      (hchild : m.g.child = some q) :
      Adopts who m q (some p) (m.g.setChild (some q) m.g.ctx true) m.a
  | init (hwait : .wait ∈ m.g.held) (hpar : m.k.parent q ≠ none) :
      Adopts who m q (some initproc) m.g (m.a.setDirty true)
  | abort (hchild : m.g.child = some q) (hlinked : m.g.linked = false) : Adopts who m q none m.g m.a
  | reap (hq : .proc q ∈ m.g.held) (hwait : .wait ∈ m.g.held) (hst : m.k.state q = .zombie)
      (hfree : m.a.freeing = none) : Adopts who m q none m.g (m.a.setFreeing (some q))

/-- What may be noted. -/
inductive Notes (strict : Prop) (who : Option (Fin n)) (m : Know n) : Event n → Priv n → Prop
  | created (q : Fin n) (pid : Int32) (hq : .proc q ∈ m.g.held) (hst : m.k.state q = .unused)
      (hlife : life q m.k.log = some .free) (hkill : strict → m.k.killed q = false) :
      Notes strict who m (.created q pid) m.g
  | aborted (q : Fin n) (hq : .proc q ∈ m.g.held) (hchild : m.g.child = some q)
      (hlife : ∃ pid, life q m.k.log = some (.live pid)) : Notes strict who m (.aborted q) m.g
  | exited (q : Fin n) (status : Int32) (hself : who = some q) (hq : .proc q ∈ m.g.held)
      (hlife : ∃ pid, life q m.k.log = some (.live pid)) : Notes strict who m (.exited q status) m.g
  | waited (p : Fin n) (addr : UInt64) (q : Fin n) (pid status : Int32) (hself : who = some p)
      (hq : .proc q ∈ m.g.held) (hwait : .wait ∈ m.g.held) (hpar : m.k.parent q = some p)
      (hst : m.k.state q = .zombie) (hpid : m.k.pid q = pid) (hx : m.k.xstate q = status)
      (hlife : life q m.k.log = some (.done pid status))
      (hstore : addr ≠ 0 → lastStored p m.k.log = some (addr, status)) :
      Notes strict who m (.waited p addr q pid status) m.g
  | killed (q : Fin n) (pid : Int32) (hq : .proc q ∈ m.g.held) (hrun : who = some q → m.g.phase = .run)
      (hstrict : strict → m.k.state q ≠ .unused ∧ Settled m.k q ∧ m.k.pid q = pid) :
      Notes strict who m (.killed q pid) (m.g.setBlames (some q))
  | trapped (q : Fin n) (hself : who = some q) (hrun : m.g.phase = .run) :
      Notes strict who m (.trapped q) (m.g.setBlames (some q))

open Classical in
/-- **The rules**: what a thread has to know at an operation, and what it knows after it. -/
@[simp] noncomputable def spec (strict : Prop) (who : Option (Fin n)) : Prog.Spec (Op n) Op.Resp (Know n)
  | .acquire l, m, Q =>
    l ∉ m.g.held ∧ ∀ k a, Agree who m.g.held m.k k m.a a → Gains strict who m.g k l →
      Q () ⟨m.g.setHeld (l :: m.g.held), k, a.lock k l⟩
  | .release l, m, Q =>
    l ∈ m.g.held ∧ Gives who m l ∧ Q () ⟨m.g.unlock who l, m.k, m.a.unlock m.g.held m.k l⟩
  | .holding l, m, Q => Q (decide (l ∈ m.g.held)) m
  | .noff, m, Q => Q m.g.held.length m
  | .myproc, m, Q => Q (who <|> m.g.phase.proc) m
  | .setProc (some p), m, Q => who = none ∧ m.g.phase = .picked p ∧ Q () ⟨m.g.setPhase (.go p), m.k, m.a⟩
  | .setProc none, m, Q => who = none ∧ (∃ p, m.g.phase = .back p) ∧ Q () ⟨m.g.setPhase .idle, m.k, m.a⟩
  | .swtchTo p, m, Q =>
    who = none ∧ m.g.phase = .go p ∧ m.g.held = [.proc p] ∧ m.g.wakes = none ∧ m.g.blames = none ∧
      Settled m.k p ∧ ∀ k a, k.state p ≠ .running → Settled k p → Q () ⟨m.g.setPhase (.back p), k, a⟩
  | .swtch, m, Q =>
    ∃ p, who = some p ∧ m.g.phase = .leave ∧ m.g.held = [.proc p] ∧ m.g.wakes = none ∧ Settled m.k p ∧
      ∀ k a, Mine who m.k k → k.state p = .running → Settled k p →
        Q () ⟨m.g.setPhase .run, k, a⟩
  | .state q, m, Q =>
    (.proc q ∈ m.g.held → Q (m.k.state q)
      ⟨m.g, m.k, if .wait ∈ m.g.held ∧ m.k.state q ≠ .zombie then m.a.setNz q else m.a⟩) ∧
    (.proc q ∉ m.g.held → ∀ st, Q st m)
  | .setState q st, m, Q =>
    .proc q ∈ m.g.held ∧ ∃ g a, Moves who m q st g a ∧
      (m.k.state q ≠ .running → Q () ⟨g, m.k.setState q st, a⟩) ∧
      -- while a process is RUNNING it may set its own `killed` without its lock
      (m.k.state q = .running → ∀ b, Q () ⟨g, (m.k.setKilled q b).setState q st, a⟩)
  | .pid q, m, Q =>
    (.proc q ∈ m.g.held → Q (m.k.pid q) m) ∧ (.proc q ∉ m.g.held → ∀ v, Q v m)
  | .setPid q v, m, Q =>
    .proc q ∈ m.g.held ∧ m.k.state q ≠ .running ∧ Q () ⟨m.g, m.k.setPid q v, m.a⟩
  | .parent q, m, Q => (.wait ∈ m.g.held → Q (m.k.parent q) m) ∧ (.wait ∉ m.g.held → ∀ o, Q o m)
  | .setParent q o, m, Q => ∃ g a, Adopts who m q o g a ∧ Q () ⟨g, m.k.setParent q o, a⟩
  | .chan q, m, Q =>
    (.proc q ∈ m.g.held → Q (m.k.chan q) m) ∧ (.proc q ∉ m.g.held → ∀ o, Q o m)
  | .setChan q o, m, Q =>
    .proc q ∈ m.g.held ∧ m.k.state q ≠ .sleeping ∧ Q () ⟨m.g, m.k.setChan q o, m.a⟩
  | .killed _, m, Q => ∀ b, Q b m
  | .setKilled q true, m, Q =>
    m.g.blames = some q ∧
      ((.proc q ∈ m.g.held ∧ m.g.wakes = none ∧
        Q () ⟨(if m.k.state q = .sleeping then m.g.setWakes (some q) else m.g).setBlames none,
          m.k.setKilled q true, m.a⟩) ∨
      (who = some q ∧ m.g.phase = .run ∧ m.g.tested = false ∧
        Q () ⟨m.g.setBlames none, m.k.setKilled q true, m.a⟩))
  | .setKilled q false, m, Q =>
    .proc q ∈ m.g.held ∧ m.k.state q ≠ .running ∧ Q () ⟨m.g, m.k.setKilled q false, m.a⟩
  | .xstate q, m, Q =>
    (.proc q ∈ m.g.held → Q (m.k.xstate q) m) ∧ (.proc q ∉ m.g.held → ∀ v, Q v m)
  | .setXstate q v, m, Q => .proc q ∈ m.g.held ∧ Q () ⟨m.g, m.k.setXstate q v, m.a⟩
  | .setContext q, m, Q =>
    .proc q ∈ m.g.held ∧ m.g.child = some q ∧ Q () ⟨m.g.setChild (some q) true m.g.linked, m.k, m.a⟩
  | .freemem q, m, Q =>
    .proc q ∈ m.g.held ∧ who ≠ some q ∧ (m.k.state q = .used ∨ m.k.state q = .zombie) ∧ Q () m
  | .copyout addr status, m, Q =>
    Q false m ∧ ∀ p, who = some p → Q true ⟨m.g, m.k.note (.stored p addr status), m.a⟩
  | .cond i, m, Q => (.cond i ∈ m.g.held → Q (m.k.cond i) m) ∧ (.cond i ∉ m.g.held → ∀ b, Q b m)
  | .setCond i b, m, Q => .cond i ∈ m.g.held ∧ Q () ⟨m.g, m.k.setCond i b, m.a⟩
  | .testKilled p, m, Q =>
    who = some p ∧ m.g.phase = .run ∧ Q true ⟨m.g.setTested false, m.k, m.a⟩ ∧
      Q false ⟨m.g.setTested true, m.k, m.a⟩
  | .untest p, m, Q => who = some p ∧ Q () ⟨m.g.setTested false, m.k, m.a⟩
  | .note ev, m, Q => ∃ g, Notes strict who m ev g ∧ Q () ⟨g, m.k.note ev, m.a⟩
  | .woken i, m, Q => .cond i ∈ m.g.held ∧ Q () m
  | .panic _, _, _ => True
  -- nothing is known about the rest
  | .nextpid, m, Q => ∀ v, Q v m
  | .kalloc, m, Q | .copyoutByte _, m, Q => ∀ b, Q b m
  | .copyinByte, m, Q => ∀ o, Q o m
  | .pipe _, m, Q => ∀ x, Q x m
  | .cons, m, Q => ∀ x, Q x m
  | .setNextpid _, m, Q | .setPipe _ _, m, Q | .setCons _, m, Q => Q () m

/-- A process between two system calls, or a scheduler between two processes. -/
structure Calm (who : Option (Fin n)) (g : Priv n) : Prop where
  phase : g.phase = if who = none then .idle else .run
  child : g.child = none
  ctx : g.ctx = false
  linked : g.linked = false
  drowsy : g.drowsy = none
  tested : g.tested = false
  wakes : g.wakes = none
  blames : g.blames = none

/-- The process is not in `wait`. -/
def NotWait (who : Option (Fin n)) (k : Store n) : Prop :=
  ∀ p addr, who = some p → calling p k.log ≠ some (.wait addr)

/-- What holds at the places where threads go on. -/
def Done (who : Option (Fin n)) (m : Know n) : Next n → Prop
  | .user => who ≠ none ∧ m.g.held = []
  | .sysret v =>
    who ≠ none ∧ m.g.held = [] ∧ ∀ p addr, who = some p → calling p m.k.log = some (.wait addr) →
      v = -1 ∧ result p m.k.log = none ∨ result p m.k.log = some v
  | .wait p _ =>
    who = some p ∧ m.g.held = [.wait] ∧ m.a.dirty = false ∧ m.a.freeing = none ∧ result p m.k.log = none
  | .piperead p i _ => who = some p ∧ m.g.held = [.pipe i] ∧ NotWait who m.k
  | .pipewrite p i _ _ => who = some p ∧ m.g.held = [.pipe i] ∧ NotWait who m.k
  | .consoleread p _ _ => who = some p ∧ m.g.held = [.cons] ∧ NotWait who m.k
  | .scheduler => who = none ∧ m.g.held = []

/-- The code of a thread keeps to the rules from here on. -/
def Good (strict : Prop) (who : Option (Fin n)) (x : KProg n (Next n)) (m : Know n) : Prop :=
  x.wp (spec strict who) m fun next m' => Calm who m'.g ∧ Done who m' next

theorem spec_mono (strict : Prop) (who : Option (Fin n)) : Prog.Spec.Mono (spec strict who) := by
  intro o m Q Q' hQ h
  cases o with
  | acquire l => exact ⟨h.1, fun k a ha hg => hQ _ _ (h.2 k a ha hg)⟩
  | release | setPid | setChan | setContext => exact ⟨h.1, h.2.1, hQ _ _ h.2.2⟩
  | setProc o =>
    rcases o with - | p
    · exact ⟨h.1, h.2.1, hQ _ _ h.2.2⟩
    · exact ⟨h.1, h.2.1, hQ _ _ h.2.2⟩
  | swtchTo p =>
    obtain ⟨h₁, h₂, h₃, h₄, h₅, h₆, h⟩ := h
    exact ⟨h₁, h₂, h₃, h₄, h₅, h₆, fun k a hk hs => hQ _ _ (h k a hk hs)⟩
  | swtch =>
    obtain ⟨p, h₁, h₂, h₃, h₄, h₅, h⟩ := h
    exact ⟨p, h₁, h₂, h₃, h₄, h₅, fun k a hm hk hs => hQ _ _ (h k a hm hk hs)⟩
  | state q => exact ⟨fun hq => hQ _ _ (h.1 hq), fun hq st => hQ _ _ (h.2 hq st)⟩
  | setState q st =>
    obtain ⟨hq, g, a, hmv, h, h'⟩ := h
    exact ⟨hq, g, a, hmv, fun hst => hQ _ _ (h hst), fun hst b => hQ _ _ (h' hst b)⟩
  | setParent q o =>
    obtain ⟨g, a, had, h⟩ := h
    exact ⟨g, a, had, hQ _ _ h⟩
  | setKilled q b =>
    cases b with
    | false => exact ⟨h.1, h.2.1, hQ _ _ h.2.2⟩
    | true =>
      refine ⟨h.1, h.2.imp ?_ ?_⟩
      · exact fun h => ⟨h.1, h.2.1, hQ _ _ h.2.2⟩
      · exact fun h => ⟨h.1, h.2.1, h.2.2.1, hQ _ _ h.2.2.2⟩
  | freemem q => exact ⟨h.1, h.2.1, h.2.2.1, hQ _ _ h.2.2.2⟩
  | copyout addr status => exact ⟨hQ _ _ h.1, fun p hp => hQ _ _ (h.2 p hp)⟩
  | testKilled p => exact ⟨h.1, h.2.1, hQ _ _ h.2.2.1, hQ _ _ h.2.2.2⟩
  | note ev =>
    obtain ⟨g, hn, h⟩ := h
    exact ⟨g, hn, hQ _ _ h⟩
  | panic msg => trivial
  | holding _ | noff | myproc | setNextpid _ | setPipe _ _ | setCons _ => exact hQ _ _ h
  | pid _ | parent _ | chan _ | xstate _ | cond _ => exact ⟨fun hq => hQ _ _ (h.1 hq), fun hq v => hQ _ _ (h.2 hq v)⟩
  | setXstate _ _ | setCond _ _ | untest _ | woken _ => exact ⟨h.1, hQ _ _ h.2⟩
  | killed _ | nextpid | kalloc | copyoutByte _ | copyinByte | pipe _ | cons => exact fun r => hQ _ _ (h r)

/-- What a program establishes may be weakened. -/
theorem wp_imp {strict : Prop} {who : Option (Fin n)} {α : Type} {x : KProg n α} {m : Know n} {Q Q' : α → Know n → Prop}
    (h : x.wp (spec strict who) m Q) (hQ : ∀ a m', Q a m' → Q' a m') : x.wp (spec strict who) m Q' :=
  Prog.wp_mono (spec_mono strict who) h hQ

end Xv6.Sched
