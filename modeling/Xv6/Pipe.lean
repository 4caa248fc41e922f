/-
Xv6/Pipe.lean

Pipes: any number of processes in `pipewrite`, `piperead` and `pipeclose` on one pipe,
and `kill`.

A process is at a position `Pc` of the code.  While it has `pi->lock`, nobody else
touches the pipe, so a step is one round of a loop; the flag `killed` is read once in
a round and others may set it before the next.  `wakeup` looks at one process of the
table in a step.  `sleep` has five: take `p->lock`, release `pi->lock`, become
SLEEPING and switch, come back when RUNNABLE again, and take `pi->lock`.  Others see
a process only when they have its `p->lock`, so `wakeup` and `kill` wait while a
process that goes to sleep has it.

`ins` and `outs` are all bytes that were ever put in and taken out; each byte is put in
under the number of the call of `pipewrite` that it belongs to.  They and `results` are
there for the statements, as is the mark on the position of a writer that has put
bytes in since it called `wakeup` last.
-/
import Xv6.Lib.Fifo
import Xv6.Proc

namespace Xv6.Pipes

open Function (update)
open Sched (Pipe PIPESIZE)

/-! ### State -/

/-- What a process sleeps on: `&pi->nread` or `&pi->nwrite`. -/
inductive Chan where
  | nread
  | nwrite
  deriving DecidableEq

/-- The arguments of a call and its local variables.  User memory is what `copyin` finds at
`addr + i`, and whether `copyout` can write there. -/
inductive Frame where
  | write (src : Nat → Option UInt8) (n : Int) (i : Nat)
  | read (dst : Nat → Bool) (n : Int)

/-- The channel on which a call sleeps. -/
def Frame.chan : Frame → Chan
  | .write _ _ _ => .nwrite
  | .read _ _ => .nread

/-- What follows a call of `wakeup`. -/
inductive After where
  | sleep (f : Frame)
  /-- Release the lock and return. -/
  | ret (f : Frame) (r : Int)
  /-- The rest of `pipeclose`. -/
  | close

variable {n : Nat}

/-- Where a process is. -/
inductive Pc (n : Nat) where
  | out
  /-- At the first `acquire(&pi->lock)`. -/
  | enter (f : Frame)
  /-- At the test of the loop; `due` if bytes were put in since the last `wakeup`. -/
  | loop (f : Frame) (due : Bool)
  /-- In the loop of `piperead` that copies. -/
  | copy (dst : Nat → Bool) (n : Int) (i : Nat)
  /-- In `wakeup`, with these processes to look at. -/
  | wake (ch : Chan) (ps : List (Fin n)) (k : After)
  /-- In `sleep`, at `acquire(&p->lock)`. -/
  | sleep (f : Frame)
  /-- In `sleep`, at `release(lk)`. -/
  | unlock (f : Frame)
  /-- In `sleep`, with `p->lock` alone. -/
  | drowsy (f : Frame)
  /-- In `sched`. -/
  | asleep (f : Frame)
  /-- In `sleep`, at `acquire(lk)`. -/
  | relock (f : Frame)
  | closing (writable : Bool)

namespace Pc

/-- The process has `pi->lock`. -/
def holds : Pc n → Bool
  | .loop _ _ | .copy _ _ _ | .wake _ _ _ | .sleep _ | .unlock _ => true
  | _ => false

/-- The process has its own `p->lock`. -/
def locksSelf : Pc n → Bool
  | .unlock _ | .drowsy _ => true
  | _ => false

/-- The process has put bytes in since it called `wakeup` last, and has more to put in. -/
def due : Pc n → Bool
  | .loop (.write _ m i) d => d && decide ((i : Int) < m)
  | _ => false

/-- The call that the process is in. -/
def frame : Pc n → Option Frame
  | .enter f | .loop f _ | .wake _ _ (.sleep f) | .wake _ _ (.ret f _) | .sleep f | .unlock f | .drowsy f
  | .asleep f | .relock f => some f
  | .copy dst m _ => some (.read dst m)
  | .out | .wake _ _ .close | .closing _ => none

end Pc

/-- A byte, and the process and its call of `pipewrite` that put it in. -/
structure In (n : Nat) where
  who : Fin n
  call : Nat
  byte : UInt8

/-- A call of `pipewrite` that has returned. -/
structure Result (n : Nat) where
  who : Fin n
  call : Nat
  src : Nat → Option UInt8
  r : Int

/-- The pipe, its users and what has happened. -/
structure Sys (n : Nat) where
  pipe : Pipe
  lock : Option (Fin n)
  /-- The page has been given back. -/
  freed : Bool
  /-- The process is SLEEPING, and on what. -/
  sleeping : Fin n → Option Chan
  killed : Fin n → Bool
  pc : Fin n → Pc n
  ins : List (In n)
  outs : List UInt8
  /-- The number of calls of `pipewrite` by a process. -/
  calls : Fin n → Nat
  results : List (Result n)

namespace Sys

variable (s : Sys n) (p : Fin n)

@[simps] def goto (pc : Pc n) : Sys n := { s with pc := update s.pc p pc }

@[simps] def setLock (o : Option (Fin n)) : Sys n := { s with lock := o }

@[simps] def setSleeping (o : Option Chan) : Sys n := { s with sleeping := update s.sleeping p o }

/-- A new call of `pipewrite`. -/
@[simps] def count : Sys n := { s with calls := update s.calls p (s.calls p + 1) }

/-- Put in a byte: `pi->data[pi->nwrite++ % PIPESIZE] = ch`. -/
@[simps] def put (ch : UInt8) : Sys n :=
  { s with
    pipe := { s.pipe with
      data := update s.pipe.data (s.pipe.nwrite.toNat % PIPESIZE) ch, nwrite := s.pipe.nwrite + 1 }
    ins := s.ins ++ [⟨p, s.calls p, ch⟩] }

/-- Take out a byte: `ch = pi->data[pi->nread++ % PIPESIZE]`. -/
@[simps] def take : Sys n :=
  { s with
    pipe := { s.pipe with nread := s.pipe.nread + 1 }
    outs := s.outs ++ [s.pipe.data (s.pipe.nread.toNat % PIPESIZE)] }

/-- Close one end. -/
@[simps] def shut (writable : Bool) : Sys n :=
  { s with
    pipe := { s.pipe with
      writeopen := if writable then false else s.pipe.writeopen
      readopen := if writable then s.pipe.readopen else false } }

/-- Release the lock and return `r`. -/
@[simps] def leave (f : Frame) (r : Int) : Sys n :=
  { s with
    lock := none
    pc := update s.pc p .out
    results := match f with
      | .write src _ _ => ⟨p, s.calls p, src, r⟩ :: s.results
      | .read _ _ => s.results }

/-- The end of `pipeclose`. -/
@[simps] def close : Sys n :=
  { s with
    lock := none
    pc := update s.pc p .out
    freed := s.freed || (!s.pipe.readopen && !s.pipe.writeopen) }

@[simps] def kill : Sys n :=
  { s with killed := update s.killed p true, sleeping := update s.sleeping p none }

end Sys

/-! ### The code -/

/-- `wakeup(ch)`, with what follows it. -/
def wakeup (ch : Chan) (k : After) : Pc n := .wake ch (List.finRange n) k

/-- The pipe is full. -/
def full (x : Pipe) : Prop := x.nwrite = x.nread + UInt32.ofNat PIPESIZE

/-- The pipe is empty. -/
def empty (x : Pipe) : Prop := x.nread = x.nwrite

instance (x : Pipe) : Decidable (full x) := inferInstanceAs (Decidable (_ = _))

instance (x : Pipe) : Decidable (empty x) := inferInstanceAs (Decidable (_ = _))

/-- A round of the loop of `pipewrite`. -/
def writeRound (s : Sys n) (p : Fin n) (src : Nat → Option UInt8) (m : Int) (i : Nat) : Sys n :=
  if (i : Int) < m then
    if s.pipe.readopen = false ∨ s.killed p = true then s.leave p (.write src m i) (-1)
    else if full s.pipe then s.goto p (wakeup .nread (.sleep (.write src m i)))
    else
      match src i with
      | none => s.goto p (wakeup .nread (.ret (.write src m i) i))
      | some ch => (s.put p ch).goto p (.loop (.write src m (i + 1)) true)
  else s.goto p (wakeup .nread (.ret (.write src m i) i))

/-- A round of the first loop of `piperead`. -/
def readRound (s : Sys n) (p : Fin n) (dst : Nat → Bool) (m : Int) : Sys n :=
  if empty s.pipe ∧ s.pipe.writeopen = true then
    if s.killed p = true then s.leave p (.read dst m) (-1)
    else s.goto p (.sleep (.read dst m))
  else s.goto p (.copy dst m 0)

/-- A round of the second loop of `piperead`. -/
def copyRound (s : Sys n) (p : Fin n) (dst : Nat → Bool) (m : Int) (i : Nat) : Sys n :=
  if (i : Int) < m then
    if empty s.pipe then s.goto p (wakeup .nwrite (.ret (.read dst m) i))
    else if dst i then s.take.goto p (.copy dst m (i + 1))
    else s.take.goto p (wakeup .nwrite (.ret (.read dst m) i))
  else s.goto p (wakeup .nwrite (.ret (.read dst m) i))

/-- What follows `wakeup`. -/
def awoke (s : Sys n) (p : Fin n) : After → Sys n
  | .sleep f => s.goto p (.sleep f)
  | .ret f r => s.leave p f r
  | .close => s.close p

/-- The next step of a process. -/
def advance (s : Sys n) (p : Fin n) : Outcome (Sys n) :=
  match s.pc p with
  | .out => .blocked
  | .enter f | .relock f =>
    if s.lock = none then .ok ((s.setLock (some p)).goto p (.loop f false)) else .blocked
  | .loop (.write src m i) _ => .ok (writeRound s p src m i)
  | .loop (.read dst m) _ => .ok (readRound s p dst m)
  | .copy dst m i => .ok (copyRound s p dst m i)
  | .wake ch (q :: qs) k =>
    if q = p then .ok (s.goto p (.wake ch qs k))
    else if (s.pc q).locksSelf then .blocked
    else if s.sleeping q = some ch then .ok ((s.setSleeping q none).goto p (.wake ch qs k))
    else .ok (s.goto p (.wake ch qs k))
  | .wake _ [] k => .ok (awoke s p k)
  | .sleep f => .ok (s.goto p (.unlock f))
  | .unlock f => .ok ((s.setLock none).goto p (.drowsy f))
  | .drowsy f => .ok ((s.setSleeping p (some f.chan)).goto p (.asleep f))
  | .asleep f => if s.sleeping p = none then .ok (s.goto p (.relock f)) else .blocked
  | .closing w =>
    if s.lock = none then
      .ok (((s.setLock (some p)).shut w).goto p (wakeup (if w then .nread else .nwrite) .close))
    else .blocked

/-- What can happen next. -/
inductive Act (n : Nat) where
  | pipewrite (p : Fin n) (src : Nat → Option UInt8) (m : Int)
  | piperead (p : Fin n) (dst : Nat → Bool) (m : Int)
  | pipeclose (p : Fin n) (writable : Bool)
  /-- Somebody calls `kill` with the pid of `p`. -/
  | kill (p : Fin n)
  | step (p : Fin n)

/-- The machine.  A pipe whose page was given back is not used any more. -/
def step : Machine (Sys n) (Act n)
  | s, .pipewrite p src m =>
    match s.pc p, s.freed with
    | .out, false => .ok ((s.count p).goto p (.enter (.write src m 0)))
    | _, _ => .blocked
  | s, .piperead p dst m =>
    match s.pc p, s.freed with
    | .out, false => .ok (s.goto p (.enter (.read dst m)))
    | _, _ => .blocked
  | s, .pipeclose p w =>
    match s.pc p, s.freed with
    | .out, false => .ok (s.goto p (.closing w))
    | _, _ => .blocked
  | s, .kill p => if (s.pc p).locksSelf then .blocked else .ok (s.kill p)
  | s, .step p => advance s p

/-- The pipe as `pipealloc` makes it, on a page with any content. -/
def pipealloc (data : Nat → UInt8) : Sys n where
  pipe := { data := data, nread := 0, nwrite := 0, readopen := true, writeopen := true }
  lock := none
  freed := false
  sleeping := fun _ => none
  killed := fun _ => false
  pc := fun _ => .out
  ins := []
  outs := []
  calls := fun _ => 0
  results := []

/-! ### What a step can do -/

/-- The steps of process `p`, one constructor for each thing that it can do. -/
inductive PStep (s : Sys n) (p : Fin n) : Sys n → Prop
  | write (src : Nat → Option UInt8) (m : Int) (hpc : s.pc p = .out) :
      PStep s p ((s.count p).goto p (.enter (.write src m 0)))
  | read (dst : Nat → Bool) (m : Int) (hpc : s.pc p = .out) : PStep s p (s.goto p (.enter (.read dst m)))
  | shut (w : Bool) (hpc : s.pc p = .out) : PStep s p (s.goto p (.closing w))
  | lock (f : Frame) (hpc : s.pc p = .enter f ∨ s.pc p = .relock f) (hl : s.lock = none) :
      PStep s p ((s.setLock (some p)).goto p (.loop f false))
  | refuse (src : Nat → Option UInt8) (m : Int) (i : Nat) (d : Bool) (hpc : s.pc p = .loop (.write src m i) d)
      (hi : (i : Int) < m) (hwhy : s.pipe.readopen = false ∨ s.killed p = true) :
      PStep s p (s.leave p (.write src m i) (-1))
  | full (src : Nat → Option UInt8) (m : Int) (i : Nat) (d : Bool) (hpc : s.pc p = .loop (.write src m i) d)
      (hopen : s.pipe.readopen = true) (hfull : full s.pipe) :
      PStep s p (s.goto p (wakeup .nread (.sleep (.write src m i))))
  | stop (src : Nat → Option UInt8) (m : Int) (i : Nat) (d : Bool) (hpc : s.pc p = .loop (.write src m i) d) :
      PStep s p (s.goto p (wakeup .nread (.ret (.write src m i) i)))
  | put (src : Nat → Option UInt8) (m : Int) (i : Nat) (d : Bool) (ch : UInt8)
      (hpc : s.pc p = .loop (.write src m i) d) (hopen : s.pipe.readopen = true) (hkill : s.killed p = false)
      (hfull : ¬ Pipes.full s.pipe) (hch : src i = some ch) :
      PStep s p ((s.put p ch).goto p (.loop (.write src m (i + 1)) true))
  | killed (dst : Nat → Bool) (m : Int) (d : Bool) (hpc : s.pc p = .loop (.read dst m) d) :
      PStep s p (s.leave p (.read dst m) (-1))
  | wait (dst : Nat → Bool) (m : Int) (d : Bool) (hpc : s.pc p = .loop (.read dst m) d) (hempty : empty s.pipe)
      (hopen : s.pipe.writeopen = true) : PStep s p (s.goto p (.sleep (.read dst m)))
  | start (dst : Nat → Bool) (m : Int) (d : Bool) (hpc : s.pc p = .loop (.read dst m) d) :
      PStep s p (s.goto p (.copy dst m 0))
  | take (dst : Nat → Bool) (m : Int) (i : Nat) (pc : Pc n) (hpc : s.pc p = .copy dst m i)
      (hne : ¬ empty s.pipe)
      (hpc' : pc = .copy dst m (i + 1) ∨ pc = wakeup .nwrite (.ret (.read dst m) i)) :
      PStep s p (s.take.goto p pc)
  | copied (dst : Nat → Bool) (m : Int) (i : Nat) (hpc : s.pc p = .copy dst m i) :
      PStep s p (s.goto p (wakeup .nwrite (.ret (.read dst m) i)))
  | skip (ch : Chan) (q : Fin n) (qs : List (Fin n)) (k : After) (hpc : s.pc p = .wake ch (q :: qs) k)
      (hq : q = p ∨ (s.pc q).locksSelf = false ∧ s.sleeping q ≠ some ch) :
      PStep s p (s.goto p (.wake ch qs k))
  | rouse (ch : Chan) (q : Fin n) (qs : List (Fin n)) (k : After) (hpc : s.pc p = .wake ch (q :: qs) k)
      (hq : q ≠ p) (hself : (s.pc q).locksSelf = false) (hsl : s.sleeping q = some ch) :
      PStep s p ((s.setSleeping q none).goto p (.wake ch qs k))
  | sleep (ch : Chan) (f : Frame) (hpc : s.pc p = .wake ch [] (.sleep f)) : PStep s p (s.goto p (.sleep f))
  | ret (ch : Chan) (f : Frame) (r : Int) (hpc : s.pc p = .wake ch [] (.ret f r)) : PStep s p (s.leave p f r)
  | close (ch : Chan) (hpc : s.pc p = .wake ch [] .close) : PStep s p (s.close p)
  | own (f : Frame) (hpc : s.pc p = .sleep f) : PStep s p (s.goto p (.unlock f))
  | unlock (f : Frame) (hpc : s.pc p = .unlock f) : PStep s p ((s.setLock none).goto p (.drowsy f))
  | doze (f : Frame) (hpc : s.pc p = .drowsy f) :
      PStep s p ((s.setSleeping p (some f.chan)).goto p (.asleep f))
  | back (f : Frame) (hpc : s.pc p = .asleep f) (hsl : s.sleeping p = none) : PStep s p (s.goto p (.relock f))
  | closeLock (w : Bool) (hpc : s.pc p = .closing w) (hl : s.lock = none) :
      PStep s p (((s.setLock (some p)).shut w).goto p (wakeup (if w then .nread else .nwrite) .close))

section Steps

variable {s s' : Sys n} {p : Fin n} {dst : Nat → Bool} {d : Bool} {i : Nat} {m : Int}

theorem pstep_write {src : Nat → Option UInt8}
    (hpc : s.pc p = .loop (.write src m i) d) : PStep s p (writeRound s p src m i) := by
  rw [writeRound]
  split
  · rename_i hi
    split
    · rename_i hwhy
      exact .refuse _ _ _ d hpc hi hwhy
    rename_i h
    obtain ⟨hopen, hkill⟩ := not_or.mp h
    split
    · rename_i hfull
      exact .full _ _ _ d hpc (by simpa using hopen) hfull
    rename_i hfull
    split
    · exact .stop _ _ _ d hpc
    · rename_i ch hch
      exact .put _ _ _ d ch hpc (by simpa using hopen) (by simpa using hkill) hfull hch
  · exact .stop _ _ _ d hpc

theorem pstep_read (hpc : s.pc p = .loop (.read dst m) d) : PStep s p (readRound s p dst m) := by
  rw [readRound]
  split
  · rename_i h
    split
    · exact .killed _ _ d hpc
    · exact .wait _ _ d hpc h.1 h.2
  · exact .start _ _ d hpc

theorem pstep_copy (hpc : s.pc p = .copy dst m i) : PStep s p (copyRound s p dst m i) := by
  rw [copyRound]
  split
  · split
    · exact .copied _ _ _ hpc
    rename_i hne
    split
    · exact .take _ _ _ _ hpc hne (.inl rfl)
    · exact .take _ _ _ _ hpc hne (.inr rfl)
  · exact .copied _ _ _ hpc

theorem pstep_advance (h : advance s p = .ok s') : PStep s p s' := by
  rw [advance] at h
  split at h
  · cases h
  · rename_i f hpc
    split at h
    · rename_i hl
      cases h
      exact .lock f (.inl hpc) hl
    · cases h
  · rename_i f hpc
    split at h
    · rename_i hl
      cases h
      exact .lock f (.inr hpc) hl
    · cases h
  · rename_i hpc
    cases h
    exact pstep_write hpc
  · rename_i hpc
    cases h
    exact pstep_read hpc
  · rename_i hpc
    cases h
    exact pstep_copy hpc
  · rename_i ch q qs k hpc
    split at h
    · rename_i hq
      cases h
      exact .skip ch q qs k hpc (.inl hq)
    · rename_i hq
      split at h
      · cases h
      rename_i hself
      split at h
      · rename_i hsl
        cases h
        exact .rouse ch q qs k hpc hq (by simpa using hself) hsl
      · rename_i hsl
        cases h
        exact .skip ch q qs k hpc (.inr ⟨by simpa using hself, hsl⟩)
  · rename_i ch k hpc
    cases h
    cases k with
    | sleep f => exact .sleep ch f hpc
    | ret f r => exact .ret ch f r hpc
    | close => exact .close ch hpc
  · rename_i f hpc
    cases h
    exact .own f hpc
  · rename_i f hpc
    cases h
    exact .unlock f hpc
  · rename_i f hpc
    cases h
    exact .doze f hpc
  · rename_i f hpc
    split at h
    · rename_i hsl
      cases h
      exact .back f hpc hsl
    · cases h
  · rename_i w hpc
    split at h
    · rename_i hl
      cases h
      exact .closeLock w hpc hl
    · cases h

/-- Every step is one of a process, or a call of `kill`. -/
theorem step_cases {a : Act n} (h : step s a = .ok s') :
    (∃ p, PStep s p s') ∨ ∃ p, a = .kill p ∧ (s.pc p).locksSelf = false ∧ s' = s.kill p := by
  cases a with
  | pipewrite p src m =>
    rw [step] at h
    split at h
    · rename_i hpc _
      cases h
      exact .inl ⟨p, .write src m hpc⟩
    · cases h
  | piperead p dst m =>
    rw [step] at h
    split at h
    · rename_i hpc _
      cases h
      exact .inl ⟨p, .read dst m hpc⟩
    · cases h
  | pipeclose p w =>
    rw [step] at h
    split at h
    · rename_i hpc _
      cases h
      exact .inl ⟨p, .shut w hpc⟩
    · cases h
  | kill p =>
    rw [step] at h
    split at h
    · cases h
    · rename_i hself
      cases h
      exact .inr ⟨p, rfl, by simpa using hself, rfl⟩
  | step p => exact .inl ⟨p, pstep_advance h⟩

end Steps

end Xv6.Pipes
