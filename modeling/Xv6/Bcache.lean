/-
Xv6/Bcache.lean

The buffer cache of kernel/bio.c, shared by any number of processes, under the
log of kernel/log.c.

The state is the log's machine of LogOps.lean, the NBUF buffers with their
most-recently-used list, the disk, and for each process where it is in a
buffer call.  A step is one critical section of `bcache.lock`, one acquisition
or release of a buffer's sleep lock, one disk operation, one assignment to
`b->data`, or one critical section of `log.lock`; steps of different processes
interleave in any order.

Processes that are not committing follow the discipline of the file system
code: `bread` a block outside the log area; if it is modified, call
`log_write`, between `begin_op` and `end_op`; then `brelse`.  What they do
beyond that is arbitrary: every choice is a label.  The process that commits
runs the loops of `write_log`, `write_head` and `install_trans`, whose bodies
are straight-line code on two local variables (`Instr`).

There is one device, ROOTDEV; `binit` leaves every buffer with device 0.
-/
import Xv6.LogOps

namespace Xv6.Bcache

open Outcome

open Function (update)
open LogOps (LogSys Pc)

/-- The device of the root file system. -/
def ROOTDEV : Nat := 1

/-! ### State -/

/-- `struct buf`; the list links are the cache's `lru`.  `dirty` is bookkeeping of
the discipline: `data` was assigned after the last `log_write` or `bwrite`. -/
structure Buf (P : Type) where
  /-- Has data been read from disk? -/
  valid : Bool
  dev : Nat
  blockno : Nat
  /-- The holder of the sleep lock. -/
  lock : Option P
  refcnt : Nat
  data : Block
  dirty : Bool

/-- The local variables of the commit code: the buffer of a log block (`to`,
`lbuf`, `buf`) and the buffer of a home block (`from`, `dbuf`). -/
inductive Reg
  | log
  | home
  deriving DecidableEq

/-- Statements of the commit code. -/
inductive Instr
  | bread (r : Reg) (b : Nat)
  /-- `memmove(dst->data, src->data, BSIZE)` -/
  | copy (dst src : Reg)
  /-- The assignments of `write_head`. -/
  | setHead (r : Reg)
  | bwrite (r : Reg)
  | bunpin (r : Reg)
  | brelse (r : Reg)
  deriving DecidableEq

/-- Where a process is inside `bread` or `brelse`. -/
inductive Task
  | none
  /-- In `bget` of block `b`, before `acquiresleep`. -/
  | lock (i : Fin NBUF) (b : Nat)
  /-- In `bread` of block `b`, before the test of `valid`. -/
  | fill (i : Fin NBUF) (b : Nat)
  /-- In `brelse`, after `releasesleep`. -/
  | unref (i : Fin NBUF)
  deriving DecidableEq

/-- A process as the cache sees it. -/
structure Thread where
  task : Task
  /-- What is left of the commit loop's body. -/
  code : List Instr
  reg : Reg → Fin NBUF

/-- The state of the system. -/
structure Sys (P : Type) where
  ops : LogSys P
  buf : Fin NBUF → Buf P
  /-- All buffers, most recently used first. -/
  lru : List (Fin NBUF)
  disk : Disk
  th : P → Thread

/-- `b` is not in the log area. -/
def Outside (lg : Log) (b : Nat) : Prop := b < lg.start ∨ lg.start + lg.size ≤ b

instance (lg : Log) (b : Nat) : Decidable (Outside lg b) :=
  inferInstanceAs (Decidable (_ ∨ _))

/-! ### The commit code -/

/-- The body of the loop of `write_log`. -/
def writeLogBody (l h : Nat) : List Instr :=
  [.bread .log l, .bread .home h, .copy .log .home, .bwrite .log, .brelse .home, .brelse .log]

/-- The body of the loop of `install_trans`, not recovering. -/
def installBody (l h : Nat) : List Instr :=
  [.bread .log l, .bread .home h, .copy .home .log, .bwrite .home, .bunpin .home, .brelse .log,
    .brelse .home]

/-- The body of `write_head`. -/
def writeHeadBody (l : Nat) : List Instr :=
  [.bread .log l, .setHead .log, .bwrite .log, .brelse .log]

/-- What a process has to execute at each point of `commit`. -/
def body (lg : Log) : Pc → List Instr
  | .writeLog tail =>
    match lg.lh.blocks[tail]? with
    | some h => writeLogBody (lg.start + tail + 1) h
    | none => []
  | .install tail =>
    match lg.lh.blocks[tail]? with
    | some h => installBody (lg.start + tail + 1) h
    | none => []
  | .writeHead | .clearHead => writeHeadBody lg.start
  | _ => []

section Machine

variable {P : Type} [DecidableEq P]

/-! ### Steps -/

def Sys.setBuf (s : Sys P) (i : Fin NBUF) (b : Buf P) : Sys P := { s with buf := update s.buf i b }

def Sys.setTh (s : Sys P) (p : P) (t : Thread) : Sys P := { s with th := update s.th p t }

def Sys.setTask (s : Sys P) (p : P) (t : Task) : Sys P := s.setTh p { s.th p with task := t }

def Sys.setCode (s : Sys P) (p : P) (c : List Instr) : Sys P := s.setTh p { s.th p with code := c }

/-- The buffer caches block `b`. -/
def Cached (s : Sys P) (i : Fin NBUF) (b : Nat) : Prop :=
  (s.buf i).dev = ROOTDEV ∧ (s.buf i).blockno = b

instance (s : Sys P) (i : Fin NBUF) (b : Nat) : Decidable (Cached s i b) :=
  inferInstanceAs (Decidable (_ ∧ _))

/-- `bget` up to `acquiresleep`: is the block already cached?  If not, recycle the
least recently used unused buffer. -/
def bget (s : Sys P) (p : P) (b : Nat) : Outcome (Sys P) :=
  match s.lru.find? fun i => Cached s i b with
  | some i =>
    .ok ((s.setBuf i { s.buf i with refcnt := (s.buf i).refcnt + 1 }).setTask p (.lock i b))
  | none =>
    match s.lru.reverse.find? fun i => (s.buf i).refcnt = 0 with
    | some i =>
      .ok ((s.setBuf i { s.buf i with dev := ROOTDEV, blockno := b, valid := false, refcnt := 1 }).setTask
        p (.lock i b))
    | none => .panic "bget: no buffers"

/-- `acquiresleep(&b->lock)`, once the lock is free. -/
def acquire (s : Sys P) (p : P) : Outcome (Sys P) :=
  match (s.th p).task with
  | .lock i b =>
    if (s.buf i).lock = none then
      .ok ((s.setBuf i { s.buf i with lock := some p }).setTask p (.fill i b))
    else .blocked
  | _ => .blocked

/-- The data that `bread` returns in buffer `i`: the disk block if the buffer is not
valid. -/
def filled (s : Sys P) (i : Fin NBUF) : Block :=
  if (s.buf i).valid then (s.buf i).data else s.disk (s.buf i).blockno

/-- The rest of `bread`: read the block if the buffer is not valid, and return it
to the caller, file system code or the commit code. -/
def fill (s : Sys P) (p : P) : Outcome (Sys P) :=
  match (s.th p).task with
  | .fill i _ =>
    let s' := s.setBuf i { s.buf i with valid := true, data := filled s i }
    match (s.th p).code with
    | [] => .ok (s'.setTask p .none)
    | .bread r _ :: c => .ok (s'.setTh p ⟨.none, c, update (s.th p).reg r i⟩)
    | _ => .blocked
  | _ => .blocked

/-- `brelse` up to the release of the sleep lock. -/
def brelse (s : Sys P) (p : P) (i : Fin NBUF) : Outcome (Sys P) :=
  if (s.buf i).lock = some p then
    .ok ((s.setBuf i { s.buf i with lock := none }).setTask p (.unref i))
  else .panic "brelse"

/-- The critical section of `brelse`. -/
def unref (s : Sys P) (p : P) : Outcome (Sys P) :=
  match (s.th p).task with
  | .unref i =>
    let refcnt := (s.buf i).refcnt - 1
    let s' := (s.setBuf i { s.buf i with refcnt := refcnt }).setTask p .none
    .ok (if refcnt = 0 then { s' with lru := i :: s.lru.erase i } else s')
  | _ => .blocked

/-- `bwrite`. -/
def bwrite (s : Sys P) (p : P) (i : Fin NBUF) : Outcome (Sys P) :=
  if (s.buf i).lock = some p then
    .ok { s.setBuf i { s.buf i with dirty := false } with
          disk := update s.disk (s.buf i).blockno (s.buf i).data }
  else .panic "bwrite"

/-- `bunpin`. -/
def bunpin (s : Sys P) (i : Fin NBUF) : Sys P :=
  s.setBuf i { s.buf i with refcnt := (s.buf i).refcnt - 1 }

/-- The next statement of the commit code. -/
def exec (s : Sys P) (p : P) : Outcome (Sys P) :=
  match (s.th p).code with
  | [] => .blocked
  | .bread _ b :: _ => bget s p b
  | .copy dst src :: c =>
    let i := (s.th p).reg dst
    let data := (s.buf ((s.th p).reg src)).data
    .ok ((s.setBuf i { s.buf i with data := data, dirty := true }).setCode p c)
  | .setHead r :: c =>
    let i := (s.th p).reg r
    let data := s.ops.log.lh.store (s.buf i).data
    .ok ((s.setBuf i { s.buf i with data := data, dirty := true }).setCode p c)
  | .bwrite r :: c => bwrite (s.setCode p c) p ((s.th p).reg r)
  | .bunpin r :: c => .ok (bunpin (s.setCode p c) ((s.th p).reg r))
  | .brelse r :: c => brelse (s.setCode p c) p ((s.th p).reg r)

/-- Steps of the processes. -/
inductive Act (P : Type)
  /-- `begin_op`, `end_op`, or the control flow of `commit`. -/
  | ops (a : LogOps.Act P)
  | bget (p : P) (b : Nat)
  | acquire (p : P)
  | fill (p : P)
  | unref (p : P)
  | modify (p : P) (i : Fin NBUF) (d : Block)
  | logWrite (p : P) (i : Fin NBUF)
  | brelse (p : P) (i : Fin NBUF)
  | exec (p : P)

/-- The process that takes a step of the log's machine. -/
def actor : LogOps.Act P → P
  | .beginOp p | .tryBegin p | .wake p | .logWrite p _ | .endOp p | .commit p | .endCommit p => p

/-- The process is in no buffer call, and at no statement of the commit code. -/
def Free (s : Sys P) (p : P) : Prop := (s.th p).task = .none ∧ (s.th p).code = []

/-- The process runs file system code, in or out of an operation. -/
def Client (s : Sys P) (p : P) : Prop :=
  Free s p ∧ (s.ops.pc p = .idle ∨ (s.ops.pc p).isActive = true)

/-- The discipline at `end_op`: whatever was modified has been logged. -/
def Logged (s : Sys P) : LogOps.Act P → Prop
  | .endOp p => ∀ i, (s.buf i).lock = some p → (s.buf i).dirty = false
  | .logWrite _ _ => False
  | _ => True

instance (s : Sys P) (p : P) : Decidable (Free s p) := inferInstanceAs (Decidable (_ ∧ _))

instance (s : Sys P) (p : P) : Decidable (Client s p) := inferInstanceAs (Decidable (_ ∧ _))

instance (s : Sys P) : ∀ a, Decidable (Logged s a)
  | .endOp p =>
    inferInstanceAs (Decidable (∀ i, (s.buf i).lock = some p → (s.buf i).dirty = false))
  | .logWrite _ _ => inferInstanceAs (Decidable False)
  | .beginOp _ | .tryBegin _ | .wake _ | .commit _ | .endCommit _ => inferInstanceAs (Decidable True)

/-- How often `log_write` calls `bpin` on buffer `i`: once if its block is not in the
header yet. -/
def newPin (s : Sys P) (i : Fin NBUF) : Nat :=
  if (s.buf i).blockno ∈ s.ops.log.lh.blocks then 0 else 1

/-- One step of the system. -/
def step : Machine (Sys P) (Act P)
  | s, .ops a =>
    if Free s (actor a) ∧ Logged s a then
      match LogOps.step s.ops a with
      | .ok o => .ok ({ s with ops := o }.setCode (actor a) (body o.log (o.pc (actor a))))
      | .panic msg => .panic msg
      | .blocked => .blocked
    else .blocked
  | s, .bget p b => if Client s p ∧ Outside s.ops.log b then bget s p b else .blocked
  | s, .acquire p => acquire s p
  | s, .fill p => fill s p
  | s, .unref p => unref s p
  | s, .modify p i d =>
    if Client s p ∧ (s.ops.pc p).isActive = true ∧ (s.buf i).lock = some p ∧
        Outside s.ops.log (s.buf i).blockno then
      .ok (s.setBuf i { s.buf i with data := d, dirty := true })
    else .blocked
  | s, .logWrite p i =>
    if Client s p ∧ (s.buf i).lock = some p ∧ Outside s.ops.log (s.buf i).blockno then
      match LogOps.step s.ops (.logWrite p (s.buf i).blockno) with
      | .ok o => .ok { s.setBuf i { s.buf i with refcnt := (s.buf i).refcnt + newPin s i, dirty := false } with
                       ops := o }
      | .panic msg => .panic msg
      | .blocked => .blocked
    else .blocked
  | s, .brelse p i =>
    if Client s p ∧ (s.buf i).lock = some p ∧ (s.buf i).dirty = false then brelse s p i
    else .blocked
  | s, .exec p => if (s.th p).task = .none then exec s p else .blocked

/-! ### What an observer sees -/

/-- A block is read or written by file system code. -/
inductive BlockEvent
  | read (b : Nat) (v : Block)
  | write (b : Nat) (v : Block)

/-- The event of a step: what `bread` returns to file system code, and what such
code stores in a buffer. -/
def obs (s : Sys P) (a : Act P) (s' : Sys P) : Option BlockEvent :=
  match a with
  | .fill p =>
    match (s.th p).task with
    | .fill i b => if (s.th p).code = [] then some (.read b (s'.buf i).data) else none
    | _ => none
  | .modify _ i d => some (.write (s.buf i).blockno d)
  | _ => none

/-! ### What a step can do -/

/-- Block `b` is what the process may ask for now: as a client any block outside
the log area, in `commit` the operand of its next statement. -/
def Asks (s : Sys P) (p : P) (b : Nat) : Prop :=
  match (s.th p).code with
  | [] => Outside s.ops.log b
  | .bread _ b' :: _ => b' = b
  | _ => False

/-- The transitions of the system, one constructor for each way a step can be
taken, with the event it shows. -/
inductive BStep (s : Sys P) : Option BlockEvent → Sys P → Prop
  | ops {a o} (hfree : Free s (actor a)) (hlog : Logged s a) (ho : LogOps.step s.ops a = .ok o) :
      BStep s none ({ s with ops := o }.setCode (actor a) (body o.log (o.pc (actor a))))
  | hit {p b i} (ht : (s.th p).task = .none) (hask : Asks s p b) (hi : Cached s i b) :
      BStep s none
        ((s.setBuf i { s.buf i with refcnt := (s.buf i).refcnt + 1 }).setTask p (.lock i b))
  | recycle {p b i} (ht : (s.th p).task = .none) (hask : Asks s p b)
      (hmiss : ∀ j ∈ s.lru, ¬ Cached s j b) (h0 : (s.buf i).refcnt = 0) :
      BStep s none
        ((s.setBuf i { s.buf i with dev := ROOTDEV, blockno := b, valid := false, refcnt := 1 }).setTask
          p (.lock i b))
  | acquire {p i b} (ht : (s.th p).task = .lock i b) (hl : (s.buf i).lock = none) :
      BStep s none ((s.setBuf i { s.buf i with lock := some p }).setTask p (.fill i b))
  | fillClient {p i b} (ht : (s.th p).task = .fill i b) (hc : (s.th p).code = []) :
      BStep s (some (.read b (filled s i)))
        ((s.setBuf i { s.buf i with valid := true, data := filled s i }).setTask p .none)
  | fillCommit {p i b r b' c} (ht : (s.th p).task = .fill i b)
      (hc : (s.th p).code = .bread r b' :: c) :
      BStep s none ((s.setBuf i { s.buf i with valid := true, data := filled s i }).setTh p
        ⟨.none, c, update (s.th p).reg r i⟩)
  | unref {p i lru} (ht : (s.th p).task = .unref i) (hlru : ∀ j ∈ s.lru, j ∈ lru) :
      BStep s none { (s.setBuf i { s.buf i with refcnt := (s.buf i).refcnt - 1 }).setTask p .none with
        lru := lru }
  | modify {p i d} (hcl : Client s p) (hact : (s.ops.pc p).isActive = true)
      (hl : (s.buf i).lock = some p) (hout : Outside s.ops.log (s.buf i).blockno) :
      BStep s (some (.write (s.buf i).blockno d))
        (s.setBuf i { s.buf i with data := d, dirty := true })
  | logWrite {p i o} (hcl : Client s p) (hl : (s.buf i).lock = some p)
      (hout : Outside s.ops.log (s.buf i).blockno)
      (ho : LogOps.step s.ops (.logWrite p (s.buf i).blockno) = .ok o) :
      BStep s none
        { s.setBuf i { s.buf i with
            refcnt := (s.buf i).refcnt + newPin s i, dirty := false } with
          ops := o }
  | brelse {p i} (hcl : Client s p) (hl : (s.buf i).lock = some p) (hd : (s.buf i).dirty = false) :
      BStep s none ((s.setBuf i { s.buf i with lock := none }).setTask p (.unref i))
  | copy {p dst src c} (ht : (s.th p).task = .none) (hc : (s.th p).code = .copy dst src :: c) :
      BStep s none ((s.setBuf ((s.th p).reg dst)
        { s.buf ((s.th p).reg dst) with
          data := (s.buf ((s.th p).reg src)).data, dirty := true }).setCode p c)
  | setHead {p r c} (ht : (s.th p).task = .none) (hc : (s.th p).code = .setHead r :: c) :
      BStep s none ((s.setBuf ((s.th p).reg r)
        { s.buf ((s.th p).reg r) with
          data := s.ops.log.lh.store (s.buf ((s.th p).reg r)).data, dirty := true }).setCode p c)
  | bwrite {p r c} (ht : (s.th p).task = .none) (hc : (s.th p).code = .bwrite r :: c)
      (hl : (s.buf ((s.th p).reg r)).lock = some p) :
      BStep s none { (s.setCode p c).setBuf ((s.th p).reg r)
          { s.buf ((s.th p).reg r) with dirty := false } with
        disk := update s.disk (s.buf ((s.th p).reg r)).blockno (s.buf ((s.th p).reg r)).data }
  | bunpin {p r c} (ht : (s.th p).task = .none) (hc : (s.th p).code = .bunpin r :: c) :
      BStep s none ((s.setCode p c).setBuf ((s.th p).reg r)
        { s.buf ((s.th p).reg r) with refcnt := (s.buf ((s.th p).reg r)).refcnt - 1 })
  | release {p r c} (ht : (s.th p).task = .none) (hc : (s.th p).code = .brelse r :: c)
      (hl : (s.buf ((s.th p).reg r)).lock = some p) :
      BStep s none (((s.setCode p c).setBuf ((s.th p).reg r)
        { s.buf ((s.th p).reg r) with lock := none }).setTh p
          { (s.th p) with code := c, task := .unref ((s.th p).reg r) })

variable {s s' : Sys P} {p : P}

theorem bstep_bget {b : Nat} (ht : (s.th p).task = .none)
    (hask : Asks s p b) (h : bget s p b = .ok s') : BStep s none s' := by
  unfold bget at h
  split at h
  · rename_i i hi
    obtain rfl := ok.inj h
    exact .hit ht hask (by simpa using List.find?_some hi)
  · rename_i hmiss
    split at h
    · rename_i i hi
      obtain rfl := ok.inj h
      refine .recycle ht hask (fun j hj => ?_) (by simpa using List.find?_some hi)
      simpa using List.find?_eq_none.mp hmiss j hj
    · cases h

theorem bstep_fill (h : fill s p = .ok s') : BStep s (obs s (.fill p) s') s' := by
  unfold fill at h
  split at h
  · rename_i i b ht
    simp only [obs, ht]
    split at h
    · rename_i hc
      obtain rfl := ok.inj h
      rw [if_pos hc]
      refine cast (congrArg (fun v => BStep s (some (.read b v)) _) ?_) (BStep.fillClient ht hc)
      show _ = (update s.buf i _ i).data
      rw [Function.update_self]
    · rename_i r b' c hc
      obtain rfl := ok.inj h
      rw [if_neg (by rw [hc]; simp)]
      exact .fillCommit ht hc
    · cases h
  · cases h

theorem bstep_unref (h : unref s p = .ok s') : BStep s none s' := by
  unfold unref at h
  split at h
  · rename_i i ht
    obtain rfl := ok.inj h
    have hmove : ∀ j ∈ s.lru, j ∈ i :: s.lru.erase i := by
      intro j hj
      by_cases hji : j = i
      · rw [hji]; exact List.mem_cons_self
      · exact List.mem_cons_of_mem _ ((List.mem_erase_of_ne hji).mpr hj)
    split_ifs
    · exact .unref ht hmove
    · exact .unref ht fun _ hj => hj
  · cases h

theorem bstep_exec (ht : (s.th p).task = .none) (h : exec s p = .ok s') : BStep s none s' := by
  unfold exec at h
  split at h
  · cases h
  · rename_i r b c hc
    exact bstep_bget ht (by rw [Asks, hc]) h
  · rename_i dst src c hc
    obtain rfl := ok.inj h
    exact .copy ht hc
  · rename_i r c hc
    obtain rfl := ok.inj h
    exact .setHead ht hc
  · rename_i r c hc
    unfold bwrite at h
    split_ifs at h with hl
    obtain rfl := ok.inj h
    exact .bwrite ht hc hl
  · rename_i r c hc
    obtain rfl := ok.inj h
    exact .bunpin ht hc
  · rename_i r c hc
    unfold brelse at h
    split_ifs at h with hl
    obtain rfl := ok.inj h
    have hst := BStep.release ht hc hl
    simpa [Sys.setTask, Sys.setCode, Sys.setTh, Sys.setBuf] using hst

/-- Every step taken is one of the transitions. -/
theorem bstep_of_step {a : Act P} (h : step s a = .ok s') : BStep s (obs s a s') s' := by
  cases a with
  | ops a =>
    simp only [step] at h
    split_ifs at h with hg
    rcases ho : LogOps.step s.ops a with o | - | msg <;> rw [ho] at h
    · obtain rfl := ok.inj h
      exact .ops hg.1 hg.2 ho
    · cases h
    · cases h
  | bget p b =>
    simp only [step] at h
    split_ifs at h with hg
    exact bstep_bget hg.1.1.1 (by rw [Asks, hg.1.1.2]; exact hg.2) h
  | acquire p =>
    simp only [step, acquire] at h
    split at h
    · rename_i i b ht
      split_ifs at h with hl
      obtain rfl := ok.inj h
      exact .acquire ht hl
    · cases h
  | fill p => exact bstep_fill h
  | unref p => exact bstep_unref h
  | modify p i d =>
    simp only [step] at h
    split_ifs at h with hg
    obtain rfl := ok.inj h
    exact .modify hg.1 hg.2.1 hg.2.2.1 hg.2.2.2
  | logWrite p i =>
    simp only [step] at h
    split_ifs at h with hg
    rcases ho : LogOps.step s.ops (.logWrite p (s.buf i).blockno) with o | - | msg <;> rw [ho] at h
    · obtain rfl := ok.inj h
      exact .logWrite hg.1 hg.2.1 hg.2.2 ho
    · cases h
    · cases h
  | brelse p i =>
    simp only [step] at h
    split_ifs at h with hg
    simp only [brelse, if_pos hg.2.1] at h
    obtain rfl := ok.inj h
    exact .brelse hg.1 hg.2.1 hg.2.2
  | exec p =>
    simp only [step] at h
    split_ifs at h with hg
    exact bstep_exec hg h

end Machine

end Xv6.Bcache
