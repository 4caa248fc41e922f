/-
Xv6/Kernel.lean

What the operations of the system calls do.

The state is the inodes, with their contents as byte strings, the inode table
and its locks, the file table, the pipes and the processes.  There is one copy of an inode: a valid entry
of the table agrees with the disk (`TableInv.cur` in Itable.lean), since every
assignment to a field is followed by `iupdate`.  A byte string stands for the
blocks of an inode; FileContent.lean shows that `readi` and `writei` see blocks
as one.  The disk does not run full here.  On a disk that does, `balloc` stops
the system.

Two machines carry out programs on this state.  `call` runs a system call
alone, from its first operation to its last; `pstep` interleaves the operations
of the calls that are in progress.
-/
import Xv6.SysFile

namespace Xv6.Sys

open Function

/-- An inode and its content. -/
structure Ino where
  fields : IFields
  data : Str
  deriving DecidableEq

/-- An entry of the file table. -/
structure File where
  ref : Nat
  data : FileData

/-- The states of a process that the system calls tell apart. -/
inductive ProcState where
  | unused
  | used
  /-- RUNNABLE, RUNNING or SLEEPING. -/
  | live
  | zombie
  deriving DecidableEq

/-- The fields of `struct proc` that the system calls use. -/
structure Proc where
  state : ProcState
  cwd : Option IPtr
  ofile : Fd → Option FPtr

/-- The page of a pipe: its ends, and how often it was freed. -/
structure PipePage where
  readopen : Bool
  writeopen : Bool
  kfrees : Nat
  deriving DecidableEq

/-- The state that the system calls work on. -/
structure Kernel where
  ninodes : Nat
  ino : Nat → Ino
  tab : Table Unit
  /-- Who holds the lock of an inode. -/
  lock : IPtr → Option PPtr
  file : FPtr → File
  /-- The number of pages that were allocated for pipes. -/
  npipes : Nat
  pipe : Nat → PipePage
  proc : PPtr → Proc
  initproc : PPtr
  nextpid : Nat

/-! ### Contents -/

/-- The bytes that `readi` copies out. -/
def readData (data : Str) (off n : Nat) : Str :=
  if data.length < off ∨ 2 ^ 32 ≤ off + n then [] else (data.drop off).take n

/-- What `writei` returns, and the content it leaves. -/
def writeData (data : Str) (off : Nat) (src : Str) : Int × Str :=
  if data.length < off ∨ 2 ^ 32 ≤ off + src.length then (-1, data)
  else if MAXFILE * BSIZE < off + src.length then (-1, data)
  else (src.length, splice data off src)

/-- What `writei` returns, and the content it leaves, when `src` is what there is to copy of
`n` bytes.  A block that cannot be copied whole is not counted, though its buffer has what
was copied of it. -/
def writeUserData (data : Str) (off n : Nat) (src : Str) : Int × Str :=
  if data.length < off ∨ 2 ^ 32 ≤ off + n then (-1, data)
  else if MAXFILE * BSIZE < off + n then (-1, data)
  else if n ≤ src.length then (n, splice data off (src.take n))
  else
    let tot := (off + src.length) / BSIZE * BSIZE - off
    (tot, (splice data off src).take (max data.length (off + tot)))

/-- The inode that `ialloc` marks. -/
def Ino.new (type : Int16) : Ino :=
  { fields := { type := type, major := 0, minor := 0, nlink := 0 }, data := [] }

/-- The inode with other fields. -/
def Ino.setFields (x : Ino) (f : IFields) : Ino := { x with fields := f }

/-- The inode with another content. -/
def Ino.setData (x : Ino) (data : Str) : Ino := { x with data := data }

/-! ### Updates -/

namespace File

/-- One reference more. -/
def dup (x : File) : File := { x with ref := x.ref + 1 }

/-- One reference less. -/
def drop (x : File) : File := { x with ref := x.ref - 1 }

/-- The entry as `filealloc` takes it. -/
def take (x : File) : File := { x with ref := 1 }

/-- The entry that nobody refers to. -/
def free (x : File) : File := { ref := 0, data := { x.data with type := .none } }

/-- What `sys_open` assigns. -/
def opened (x : File) (ip : IPtr) (device : Bool) (major : Int16) (readable writable : Bool) : File :=
  { ref := x.ref
    data :=
      { type := if device then .device else .inode
        pipe := x.data.pipe
        ip := some ip
        off := if device then x.data.off else 0
        major := if device then major else x.data.major
        readable := readable
        writable := writable } }

/-- What `pipealloc` assigns to one of its files. -/
def piped (x : File) (pi : Nat) (writable : Bool) : File :=
  { x with data := { x.data with type := .pipe, pipe := some pi, readable := !writable, writable := writable } }

def setOff (x : File) (off : Nat) : File := { x with data := { x.data with off := off } }

end File

namespace PipePage

/-- A page that was never allocated. -/
def none : PipePage := { readopen := false, writeopen := false, kfrees := 0 }

/-- The page as `pipealloc` sets it up. -/
def new : PipePage := { readopen := true, writeopen := true, kfrees := 0 }

/-- One end is open. -/
def isOpen (x : PipePage) : Bool → Bool
  | true => x.writeopen
  | false => x.readopen

/-- One end is closed. -/
def close (x : PipePage) : Bool → PipePage
  | true => { x with writeopen := false }
  | false => { x with readopen := false }

/-- `kfree`. -/
def kfree (x : PipePage) : PipePage := { x with kfrees := x.kfrees + 1 }

/-- `pipeclose`. -/
def pipeclose (x : PipePage) (writable : Bool) : PipePage :=
  let y := x.close writable
  if y.readopen = false ∧ y.writeopen = false then y.kfree else y

end PipePage

namespace Proc

def setState (x : Proc) (state : ProcState) : Proc := { x with state := state }

def setCwd (x : Proc) (cwd : Option IPtr) : Proc := { x with cwd := cwd }

def setFd (x : Proc) (fd : Fd) (f : Option FPtr) : Proc :=
  { x with ofile := update x.ofile fd f }

/-- The child of `fork`. -/
def spawned (x : Proc) (ofile : Fd → Option FPtr) (cwd : IPtr) : Proc :=
  { state := .live, cwd := some cwd, ofile := fun fd => (ofile fd).or (x.ofile fd) }

end Proc

namespace Kernel

/-- The inode of a table entry. -/
def inode (s : Kernel) (ip : IPtr) : Ino := s.ino (s.tab ip).inum

@[simps] def setTab (s : Kernel) (tab : Table Unit) : Kernel := { s with tab := tab }

@[simps] def setIno (s : Kernel) (i : Nat) (x : Ino) : Kernel :=
  { s with ino := update s.ino i x }

@[simps] def setLock (s : Kernel) (ip : IPtr) (q : Option PPtr) : Kernel :=
  { s with lock := update s.lock ip q }

@[simps] def setPipe (s : Kernel) (pi : Nat) (x : PipePage) : Kernel :=
  { s with pipe := update s.pipe pi x }

/-- A new page for a pipe. -/
@[simps] def addPipe (s : Kernel) : Kernel :=
  { s with npipes := s.npipes + 1, pipe := update s.pipe s.npipes .new }

@[simps] def setFile (s : Kernel) (f : FPtr) (x : File) : Kernel :=
  { s with file := update s.file f x }

@[simps] def setProc (s : Kernel) (p : PPtr) (x : Proc) : Kernel :=
  { s with proc := update s.proc p x }

@[simps] def bumpPid (s : Kernel) : Kernel := { s with nextpid := s.nextpid + 1 }

/-- Replace one entry of the inode table. -/
def setEntry (s : Kernel) (ip : IPtr) (e : Entry Unit) : Kernel :=
  s.setTab (update s.tab ip e)

/-- Replace the inode of a table entry. -/
def setInode (s : Kernel) (ip : IPtr) (x : Ino) : Kernel := s.setIno (s.tab ip).inum x

end Kernel

/-! ### Operations -/

/-- The calling process `p` carries out one operation.  `hint` is the response to a
`choice`, and whether `kalloc` finds a page. -/
def perform (p : PPtr) (hint : Bool) (s : Kernel) : (o : FsOp) → Outcome (Kernel × o.Resp)
  | .iget inum =>
    match s.tab.iget inum with
    | .ok (ip, tab) => .ok (s.setTab tab, ip)
    | .error msg => .panic msg
  | .idup ip => .ok (s.setEntry ip (s.tab ip).dup, ())
  | .ilock ip | .ilockNew ip _ =>
    if (s.tab ip).ref < 1 then .panic "ilock"
    else if s.lock ip ≠ none then .blocked
    else if (s.tab ip).valid then .ok (s.setLock ip (some p), ())
    else if (s.inode ip).fields.type = 0 then .panic "ilock: no type"
    else .ok ((s.setLock ip (some p)).setEntry ip ((s.tab ip).setValid true), ())
  | .iunlock ip =>
    if s.lock ip ≠ some p ∨ (s.tab ip).ref < 1 then .panic "iunlock"
    else .ok (s.setLock ip none, ())
  | .lastRef ip =>
    if (s.tab ip).ref = 1 ∧ (s.tab ip).valid = true ∧ (s.inode ip).fields.nlink = 0 then
      if s.lock ip ≠ none then .blocked else .ok (s.setLock ip (some p), true)
    else .ok (s, false)
  | .invalidate ip => .ok (s.setEntry ip ((s.tab ip).setValid false), ())
  | .idrop ip => .ok (s.setEntry ip (s.tab ip).drop, ())
  | .inum ip => .ok (s, (s.tab ip).inum)
  | .fields ip => .ok (s, (s.inode ip).fields)
  | .size ip => .ok (s, (s.inode ip).data.length)
  | .iupdate ip f => .ok (s.setInode ip ((s.inode ip).setFields f), ())
  | .readi ip off n => .ok (s, readData (s.inode ip).data off n)
  | .writei ip off src =>
    let r := writeData (s.inode ip).data off src
    .ok (s.setInode ip ((s.inode ip).setData r.2), r.1)
  | .writeUser ip off n src =>
    let r := writeUserData (s.inode ip).data off n src
    .ok (s.setInode ip ((s.inode ip).setData r.2), r.1)
  | .itrunc ip => .ok (s.setInode ip ((s.inode ip).setData []), ())
  | .mark type =>
    match (List.range s.ninodes).find? fun i => i ≠ 0 ∧ (s.ino i).fields.type = 0 with
    | some i => .ok (s.setIno i (.new type), i)
    | none => .panic "ialloc: no inodes"
  | .filealloc =>
    match (List.finRange NFILE).find? fun f => (s.file f).ref = 0 with
    | some f => .ok (s.setFile f (s.file f).take, some f)
    | none => .ok (s, none)
  | .filedup f =>
    if (s.file f).ref < 1 then .panic "filedup" else .ok (s.setFile f (s.file f).dup, ())
  | .fileunref f =>
    if (s.file f).ref < 1 then .panic "fileclose"
    else if 1 < (s.file f).ref then .ok (s.setFile f (s.file f).drop, none)
    else .ok (s.setFile f (s.file f).free, some (s.file f).data)
  | .fileopen f ip device major readable writable =>
    .ok (s.setFile f ((s.file f).opened ip device major readable writable), ())
  | .filedata f => .ok (s, (s.file f).data)
  | .setOff f off => .ok (s.setFile f ((s.file f).setOff off), ())
  | .pipeinit f0 f1 =>
    if hint then
      .ok ((s.addPipe.setFile f0 ((s.file f0).piped s.npipes false)).setFile f1
        ((s.file f1).piped s.npipes true), true)
    else .ok (s, false)
  | .pipeclose pi writable => .ok (s.setPipe pi ((s.pipe pi).pipeclose writable), ())
  | .cwd =>
    match (s.proc p).cwd with
    | some ip => .ok (s, ip)
    | none => .panic "kerneltrap"
  | .setCwd ip => .ok (s.setProc p ((s.proc p).setCwd ip), ())
  | .ofile fd => .ok (s, (s.proc p).ofile fd)
  | .clearFd fd => .ok (s.setProc p ((s.proc p).setFd fd none), ())
  | .fdalloc f =>
    match (List.finRange NOFILE).find? fun fd => (s.proc p).ofile fd = none with
    | some fd => .ok (s.setProc p ((s.proc p).setFd fd (some f)), some fd)
    | none => .ok (s, none)
  | .isInit => .ok (s, decide (p = s.initproc))
  | .zombie => .ok (s.setProc p ((s.proc p).setState .zombie), ())
  | .allocproc =>
    match (List.finRange NPROC).find? fun np => (s.proc np).state = .unused with
    | some np => .ok ((s.setProc np ((s.proc np).setState .used)).bumpPid, some (np, s.nextpid))
    | none => .ok (s, none)
  | .freeproc np => .ok (s.setProc np ((s.proc np).setState .unused), ())
  | .spawn np ofile cwd => .ok (s.setProc np ((s.proc np).spawned ofile cwd), ())
  | .choice => .ok (s, hint)
  | .panic msg => .panic msg

/-! ### Calls in progress at the same time -/

/-- The state and what each process has left to do of the call it is in. -/
structure Pool where
  kernel : Kernel
  prog : PPtr → Option (FsProg Int)

/-- What can happen next. -/
inductive Act where
  /-- A process makes a system call. -/
  | start (p : PPtr) (c : Syscall)
  /-- A process does the next operation of its call, or returns from it. -/
  | step (p : PPtr) (hint : Bool)
  /-- Somebody waits for a process that has exited. -/
  | reap (p : PPtr)

def pstep (s : Pool) : Act → Outcome Pool
  | .start p c =>
    if (s.kernel.proc p).state = .live ∧ (s.prog p).isNone then
      .ok { s with prog := update s.prog p (some c.prog) }
    else .blocked
  | .step p hint =>
    match s.prog p with
    | none => .blocked
    | some (.ret _) => .ok { s with prog := update s.prog p none }
    | some (.call o k) =>
      match perform p hint s.kernel o with
      | .ok (kernel, r) => .ok { kernel := kernel, prog := update s.prog p (some (k r)) }
      | .blocked => .blocked
      | .panic msg => .panic msg
  | .reap p =>
    if (s.kernel.proc p).state = .zombie ∧ (s.prog p).isNone then
      .ok { s with kernel := s.kernel.setProc p ((s.kernel.proc p).setState .unused) }
    else .blocked

/-! ### Booting -/

/-- No table entry is in use but the one of the root directory, which is the current
directory of the first process. -/
def bootTab : Table Unit := fun e =>
  if e.val = 0 then { ref := 1, inum := ROOTINO, valid := false, mem := () }
  else { ref := 0, inum := 0, valid := false, mem := () }

/-- The kernel as `userinit` leaves it, on a disk with inodes `ino`. -/
def boot (ninodes : Nat) (ino : Nat → Ino) : Kernel where
  ninodes := ninodes
  ino := ino
  tab := bootTab
  lock := fun _ => none
  file := fun _ =>
    { ref := 0
      data :=
        { type := .none, pipe := none, ip := none, off := 0, major := 0, readable := false, writable := false } }
  npipes := 0
  pipe := fun _ => .none
  proc := fun p =>
    if p.val = 0 then { state := .live, cwd := some ⟨0, NINODE_pos⟩, ofile := fun _ => none }
    else { state := .unused, cwd := none, ofile := fun _ => none }
  initproc := ⟨0, NPROC_pos⟩
  nextpid := 2

/-- A disk with an empty root directory. -/
def rootIno : Nat → Ino := fun i =>
  if i = ROOTINO then
    { fields := { type := T_DIR, major := 0, minor := 0, nlink := 1 }
      data := Dirent.bytes { inum := ROOTINO, name := dot } ++
        Dirent.bytes { inum := ROOTINO, name := dotdot } }
  else .new 0

end Xv6.Sys
