/-
Xv6/User.lean

Processes of user programs, with the system calls as they see them.

A user program is a `Prog` over the system calls `Op`.  A `World` has any number of
processes that run such programs; a step is one system call of one process, or what a
`write` can do of it, and the steps interleave in any order.  Descriptors and pipes
behave as the kernel's: `pipe` takes the lowest free descriptors, `fork` copies the
table, `read` waits for as long as the pipe is empty and its other end is open somewhere,
`write` waits while the pipe is full and fails when nobody can read.  An end of a
pipe is open as long as a descriptor stands for it.

`fork` and `pipe` succeed here.  What goes to the console is the subject of
Console.lean; `print` is the whole of a `printf`.  `trace` is all that has happened, for the
statements.
-/
import Xv6.SysFile
import Xv6.Proc

namespace Xv6.User

open Function (update)
open Sys (Fd NOFILE)
open Sched (PIPESIZE)

/-- What a descriptor stands for. -/
inductive Desc where
  | console
  | pipe (i : Nat) (writable : Bool)
  deriving DecidableEq

/-- System calls. -/
inductive Op : Type
  | fork
  | pipe
  | read (fd : Fd) (n : Nat)
  | write (fd : Fd) (bs : List UInt8)
  | close (fd : Fd)
  | wait
  | getpid
  | print (text : String)
  | exit

/-- What comes back from a system call.  `read` fails with `none`, `write` with `false`. -/
@[reducible] def Op.Resp : Op → Type
  | .fork | .getpid => Nat
  | .pipe => Fd × Fd
  | .read _ _ => Option (List UInt8)
  | .write _ _ => Bool
  | .exit => Empty
  | _ => Unit

/-- A user program. -/
abbrev UProg (α : Type) : Type := Prog Op Op.Resp α

/-- Make a system call. -/
def sys (o : Op) : UProg o.Resp := .op o

/-- A process that runs. -/
structure Task where
  code : UProg Unit
  ofile : Fd → Option Desc
  parent : Nat

/-- The state of a process. -/
inductive Slot where
  | unused
  | live (t : Task)
  | zombie (parent : Nat)

/-- What has happened. -/
inductive Event where
  /-- What a `read` from pipe `i` returned. -/
  | read (i : Nat) (bs : List UInt8)
  | write (i : Nat) (bs : List UInt8)
  | print (text : String)
  deriving DecidableEq

/-- The processes and the pipes, with the bytes that are in them. -/
structure World where
  proc : Nat → Slot
  nextpid : Nat
  queue : Nat → List UInt8
  npipes : Nat
  trace : List (Nat × Event)

namespace Slot

/-- The process has a descriptor for one end of a pipe. -/
def has (x : Slot) (d : Desc) : Bool :=
  match x with
  | .live t => (List.finRange NOFILE).any fun fd => t.ofile fd = some d
  | _ => false

def isChild (x : Slot) (p : Nat) : Bool :=
  match x with
  | .live t => t.parent = p
  | .zombie q => q = p
  | .unused => false

def isZombie (x : Slot) (p : Nat) : Bool :=
  match x with
  | .zombie q => q = p
  | _ => false

end Slot

namespace World

/-- One end of a pipe is open. -/
def isOpen (s : World) (i : Nat) (writable : Bool) : Bool :=
  (List.range s.nextpid).any fun q => (s.proc q).has (.pipe i writable)

def setSlot (s : World) (p : Nat) (x : Slot) : World := { s with proc := update s.proc p x }

def setQueue (s : World) (i : Nat) (bs : List UInt8) : World := { s with queue := update s.queue i bs }

def record (s : World) (p : Nat) (e : Event) : World := { s with trace := s.trace ++ [(p, e)] }

end World

/-- The lowest descriptor that is free. -/
def fdalloc (ofile : Fd → Option Desc) : Option Fd := (List.finRange NOFILE).find? fun fd => ofile fd = none

/-- Process `p` makes a system call. -/
def exec (s : World) (p : Nat) (t : Task) : (o : Op) → (o.Resp → UProg Unit) → Outcome World
  | .fork, k =>
    .ok { (s.setSlot p (.live { t with code := k s.nextpid })).setSlot s.nextpid
            (.live { t with code := k 0, parent := p }) with
          nextpid := s.nextpid + 1 }
  | .pipe, k =>
    match fdalloc t.ofile with
    | none => .blocked
    | some r =>
      let ofile := update t.ofile r (some (.pipe s.npipes false))
      match fdalloc ofile with
      | none => .blocked
      | some w =>
        let ofile := update ofile w (some (.pipe s.npipes true))
        .ok { s.setSlot p (.live { t with code := k (r, w), ofile := ofile }) with npipes := s.npipes + 1 }
  | .read fd n, k =>
    match t.ofile fd with
    | some (.pipe i false) =>
      if s.queue i = [] ∧ s.isOpen i true then .blocked
      else
        let bs := (s.queue i).take n
        .ok (((s.setQueue i ((s.queue i).drop n)).setSlot p (.live { t with code := k (some bs) })).record p
          (.read i bs))
    | some .console => .blocked
    | _ => .ok (s.setSlot p (.live { t with code := k none }))
  | .write fd bs, k =>
    match t.ofile fd with
    | some (.pipe i true) =>
      if bs = [] then .ok (s.setSlot p (.live { t with code := k true }))
      else if s.isOpen i false = false then .ok (s.setSlot p (.live { t with code := k false }))
      else
        let room := PIPESIZE - (s.queue i).length
        if room = 0 then .blocked
        else
          -- what does not fit waits for the next step
          let code := if bs.length ≤ room then k true else .call (.write fd (bs.drop room)) k
          .ok (((s.setQueue i (s.queue i ++ bs.take room)).setSlot p (.live { t with code := code })).record p
            (.write i (bs.take room)))
    | some .console => .blocked
    | _ => .ok (s.setSlot p (.live { t with code := k false }))
  | .close fd, k => .ok (s.setSlot p (.live { t with code := k (), ofile := update t.ofile fd none }))
  | .wait, k =>
    match (List.range s.nextpid).find? fun q => (s.proc q).isZombie p with
    | some q => .ok ((s.setSlot q .unused).setSlot p (.live { t with code := k () }))
    | none =>
      if (List.range s.nextpid).any fun q => (s.proc q).isChild p then .blocked
      else .ok (s.setSlot p (.live { t with code := k () }))
  | .getpid, k => .ok (s.setSlot p (.live { t with code := k p }))
  | .print text, k => .ok ((s.setSlot p (.live { t with code := k () })).record p (.print text))
  | .exit, _ => .ok (s.setSlot p (.zombie t.parent))

/-- One step of process `p`. -/
def step (s : World) (p : Nat) : Outcome World :=
  match s.proc p with
  | .live t =>
    match t.code with
    | .ret _ => .blocked
    | .call o k => exec s p t o k
  | _ => .blocked

/-- The descriptors that a program starts with. -/
def stdio : Fd → Option Desc := fun fd => if fd.val < 3 then some .console else none

/-- Process `p` of parent `shell` is about to run a program. -/
def start (p shell : Nat) (code : UProg Unit) : World where
  proc := fun q =>
    if q = p then .live { code := code, ofile := stdio, parent := shell } else .unused
  nextpid := p + 1
  queue := fun _ => []
  npipes := 0
  trace := []

end Xv6.User
