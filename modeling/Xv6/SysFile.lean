/-
Xv6/SysFile.lean

The file system calls, as programs.

A system call is a program over the operations `FsOp`: the critical sections of
fs.c, file.c and proc.c, and reads and writes of the calling process's own
fields.  The text of the calls is fixed here once; Kernel.lean says what the
operations do.

`ilock` waits for the sleep lock of an inode and `iunlock` releases it.
`begin_op` and `end_op`, which group the writes of a call, are the subject of
LogOps.lean.  There is one device, so the comparisons of `dev` are left out.
What goes through a pipe is the subject of Pipe.lean; here it is a page with two
ends that are open or closed.

`iput` is a program rather than an operation since it releases the table's lock
between its test and its last step.  Whether memory can be had (`uvmalloc`,
`uvmcopy` and others) or read and written by a user address (`copyout`) is an
operation, `choice`, whose response is arbitrary.
-/
import Xv6.Dirent
import Xv6.Itable
import Xv6.Lib.Prog

namespace Xv6.Sys

open Bytes

/-- Open files per system. -/
def NFILE : Nat := 100

/-- Open files per process. -/
def NOFILE : Nat := 16

/-- Maximum number of processes. -/
def NPROC : Nat := 64

theorem NPROC_pos : 0 < NPROC := by decide

/-- Maximum major device number. -/
def NDEV : Nat := 10

/-- The major number of the console. -/
def CONSOLE : Int16 := 1

/-- Directory. -/
def T_DIR : Int16 := 1

/-- File. -/
def T_FILE : Int16 := 2

/-- Device. -/
def T_DEVICE : Int16 := 3

def O_RDONLY : UInt32 := 0x000
def O_WRONLY : UInt32 := 0x001
def O_RDWR : UInt32 := 0x002
def O_CREATE : UInt32 := 0x200
def O_TRUNC : UInt32 := 0x400

/-- `struct inode *`: an entry of the inode table. -/
abbrev IPtr : Type := Fin NINODE

/-- `struct file *`: an entry of the file table. -/
abbrev FPtr : Type := Fin NFILE

/-- `struct proc *`: an entry of the process table. -/
abbrev PPtr : Type := Fin NPROC

/-- A file descriptor. -/
abbrev Fd : Type := Fin NOFILE

/-- The fields of an inode that the system calls set. -/
structure IFields where
  type : Int16
  major : Int16
  minor : Int16
  nlink : Int16
  deriving DecidableEq

/-- What a `struct file` stands for. -/
inductive FdType where
  | none
  | pipe
  | inode
  | device
  deriving DecidableEq

/-- A `struct file`, apart from its reference count.  `pipe` is the number of the
allocation of the pipe's page: a page that is freed and allocated again gets another one. -/
structure FileData where
  type : FdType
  pipe : Option Nat
  ip : Option IPtr
  off : Nat
  major : Int16
  readable : Bool
  writable : Bool

/-! ### Operations -/

/-- What a system call does in one step. -/
inductive FsOp : Type
  -- the inode table
  | iget (inum : Nat)
  | idup (ip : IPtr)
  | ilock (ip : IPtr)
  /-- The `ilock` of `create`, for an inode that it has allocated with this type. -/
  | ilockNew (ip : IPtr) (type : Int16)
  | iunlock (ip : IPtr)
  /-- The test of `iput`: no links and no other references.  If so, the lock is taken. -/
  | lastRef (ip : IPtr)
  /-- `ip->valid = 0`. -/
  | invalidate (ip : IPtr)
  /-- `ip->ref--`. -/
  | idrop (ip : IPtr)
  -- an inode
  | inum (ip : IPtr)
  | fields (ip : IPtr)
  | size (ip : IPtr)
  /-- Assign the fields, and `iupdate`. -/
  | iupdate (ip : IPtr) (f : IFields)
  | readi (ip : IPtr) (off n : Nat)
  | writei (ip : IPtr) (off : Nat) (src : Str)
  /-- `writei` from a user address, where `src` is what there is to copy of `n` bytes. -/
  | writeUser (ip : IPtr) (off n : Nat) (src : Str)
  | itrunc (ip : IPtr)
  /-- The search of `ialloc`: mark a free inode allocated on the disk. -/
  | mark (type : Int16)
  -- the file table
  | filealloc
  | filedup (f : FPtr)
  /-- The critical section of `fileclose`, with the copy it leaves when the last reference goes. -/
  | fileunref (f : FPtr)
  /-- The assignments of `sys_open` to a new `struct file`. -/
  | fileopen (f : FPtr) (ip : IPtr) (device : Bool) (major : Int16) (readable writable : Bool)
  /-- The fields of a `struct file`. -/
  | filedata (f : FPtr)
  /-- `f->off = off`. -/
  | setOff (f : FPtr) (off : Nat)
  -- pipes
  /-- `kalloc` for a pipe, and the assignments of `pipealloc` to it and to two new files, which
  nobody else can see yet. -/
  | pipeinit (f0 f1 : FPtr)
  | pipeclose (pi : Nat) (writable : Bool)
  -- the calling process
  | cwd
  | setCwd (ip : Option IPtr)
  | ofile (fd : Fd)
  | clearFd (fd : Fd)
  | fdalloc (f : FPtr)
  | isInit
  /-- `p->state = ZOMBIE`. -/
  | zombie
  -- other processes
  | allocproc
  | freeproc (np : PPtr)
  /-- The child of `fork` gets its fields and becomes RUNNABLE. -/
  | spawn (np : PPtr) (ofile : Fd → Option FPtr) (cwd : IPtr)
  -- the rest of the kernel
  | choice
  | panic (msg : String)

/-- What comes back from an operation. -/
@[reducible] def FsOp.Resp : FsOp → Type
  | .iget _ | .cwd => IPtr
  | .lastRef _ | .isInit | .choice | .pipeinit _ _ => Bool
  | .inum _ | .size _ | .mark _ => Nat
  | .fields _ => IFields
  | .readi _ _ _ => Str
  | .writei _ _ _ | .writeUser _ _ _ _ => Int
  | .filedata _ => FileData
  | .filealloc | .ofile _ => Option FPtr
  | .fileunref _ => Option FileData
  | .fdalloc _ => Option Fd
  | .allocproc => Option (PPtr × Nat)
  | .panic _ => Empty
  | _ => Unit

/-- A part of a system call. -/
abbrev FsProg (α : Type) : Type := Prog FsOp FsOp.Resp α

section Programs

variable {α : Type}

/-- Stop the system. -/
def panic (msg : String) : FsProg α := .call (.panic msg) nofun

/-- Issue one operation. -/
def issue (o : FsOp) : FsProg o.Resp := .op o

@[simp] theorem wp_issue {M : Type} {Φ : Prog.Spec FsOp FsOp.Resp M} {o : FsOp} {m : M}
    {Q : o.Resp → M → Prop} : Prog.wp (α := no_index o.Resp) Φ (issue o) m Q ↔ Φ o m Q := Iff.rfl

/-! ### Inodes -/

/-- The branch of `iput` that truncates and frees. -/
def ifree (ip : IPtr) : FsProg Unit := do
  issue (.itrunc ip)
  let f ← issue (.fields ip)
  issue (.iupdate ip { f with type := 0 })
  issue (.invalidate ip)
  -- releasesleep
  issue (.iunlock ip)

/-- Drop a reference to an in-memory inode.  If that was the last reference and the
inode has no links to it, free the inode (and its content) on disk. -/
def iput (ip : IPtr) : FsProg Unit := do
  let last ← issue (.lastRef ip)
  (if last then ifree ip else pure ())
  issue (.idrop ip)

/-- Unlock, then put. -/
def iunlockput (ip : IPtr) : FsProg Unit := do
  issue (.iunlock ip)
  iput ip

/-- Allocate an inode. -/
def ialloc (type : Int16) : FsProg IPtr := do
  let inum ← issue (.mark type)
  issue (.iget inum)

/-! ### Directories -/

/-- The loop over the entries of a directory that `dirlookup`, `dirlink` and `isdirempty`
have: from `off` on, to the first entry that meets `stop`, or to the end.  Every round
reads one entry, so `size` rounds are enough. -/
def scan (dp : IPtr) (msg : String) (stop : Dirent → Bool) (size : Nat) :
    Nat → Nat → FsProg (Nat × Option Dirent)
  | 0, off => return (off, none)
  | n + 1, off =>
    if off < size then do
      let b ← issue (.readi dp off DIRENT)
      if b.length ≠ DIRENT then panic msg
      else if stop (.ofBytes b) then return (off, some (.ofBytes b))
      else scan dp msg stop size n (off + DIRENT)
    else return (off, none)

/-- Look for a directory entry in a directory: the inode and the byte offset of the entry. -/
def dirlookup (dp : IPtr) (name : Str) : FsProg (Option (IPtr × Nat)) := do
  let f ← issue (.fields dp)
  if f.type ≠ T_DIR then panic "dirlookup not DIR"
  else
    let size ← issue (.size dp)
    match ← scan dp "dirlookup read" (fun de => de.inum ≠ 0 ∧ namecmp name de.name = 0) size size 0 with
    | (off, some de) =>
      -- entry matches path element
      let ip ← issue (.iget de.inum)
      return some (ip, off)
    | (_, none) => return none

/-- Write a new directory entry (name, inum) into the directory `dp`. -/
def dirlink (dp : IPtr) (name : Str) (inum : Nat) : FsProg Int := do
  -- Check that name is not present.
  match ← dirlookup dp name with
  | some (ip, _) =>
    iput ip
    return -1
  | none =>
    -- Look for an empty dirent.
    let size ← issue (.size dp)
    let (off, _) ← scan dp "dirlink read" (fun de => de.inum = 0) size size 0
    let n ← issue (.writei dp off (Dirent.bytes { inum := inum, name := name }))
    if n ≠ DIRENT then panic "dirlink" else return 0

/-- Is the directory `dp` empty except for "." and ".." ? -/
def isdirempty (dp : IPtr) : FsProg Bool := do
  let size ← issue (.size dp)
  let (_, de) ← scan dp "isdirempty: readi" (fun de => de.inum ≠ 0) size size (2 * DIRENT)
  return de.isNone

/-! ### Paths -/

/-- The loop of `namex`. -/
def namexLoop (parent : Bool) (ip : IPtr) : List Str → FsProg (Option (IPtr × Str))
  | [] =>
    if parent then do
      iput ip
      return none
    else return some (ip, [])
  | name :: rest => do
    issue (.ilock ip)
    let f ← issue (.fields ip)
    if f.type ≠ T_DIR then
      iunlockput ip
      return none
    else if parent ∧ rest = [] then
      -- Stop one level early.
      issue (.iunlock ip)
      return some (ip, name)
    else
      match ← dirlookup ip name with
      | none =>
        iunlockput ip
        return none
      | some (next, _) =>
        iunlockput ip
        namexLoop parent next rest

/-- Look up and return the inode for a path name, or for its parent and then with the
final path element. -/
def namex (path : Str) (parent : Bool) : FsProg (Option (IPtr × Str)) := do
  if path.headD 0 = slash then
    let ip ← issue (.iget ROOTINO)
    namexLoop parent ip (elems path)
  else
    let ip ← issue .cwd
    issue (.idup ip)
    namexLoop parent ip (elems path)

def namei (path : Str) : FsProg (Option IPtr) := do
  let r ← namex path false
  return r.map Prod.fst

def nameiparent (path : Str) : FsProg (Option (IPtr × Str)) := namex path true

/-! ### Open files -/

/-- Close a file.  (Decrement the count, close when it reaches 0.) -/
def fileclose (f : FPtr) : FsProg Unit := do
  match ← issue (.fileunref f) with
  | none => return ()
  | some ff =>
    if ff.type = .pipe then
      match ff.pipe with
      | some pi => issue (.pipeclose pi ff.writable)
      | none => panic "kerneltrap"
    else if ff.type = .inode ∨ ff.type = .device then
      match ff.ip with
      | some ip => iput ip
      | none => panic "kerneltrap"
    else return ()

/-- Fetch a system call argument as a file descriptor. -/
def argfd (n : Int) : FsProg (Option (Fd × FPtr)) := do
  if h : 0 ≤ n ∧ n < NOFILE then
    let fd : Fd := ⟨n.toNat, by omega⟩
    let f ← issue (.ofile fd)
    return f.map fun f => (fd, f)
  else return none

def sysDup (n : Int) : FsProg Int := do
  match ← argfd n with
  | none => return -1
  | some (_, f) =>
    match ← issue (.fdalloc f) with
    | none => return -1
    | some fd =>
      issue (.filedup f)
      return fd.val

def sysClose (n : Int) : FsProg Int := do
  match ← argfd n with
  | none => return -1
  | some (fd, f) =>
    issue (.clearFd fd)
    fileclose f
    return 0

/-! ### Reading and writing -/

/-- What `piperead`, `pipewrite` or a device returns.  They touch no inode and no file. -/
def transfer (n : Int) : FsProg Int := do
  let ok ← issue .choice
  return if ok then n else -1

/-- The device has functions in `devsw`. -/
def devsw (major : Int16) : Bool := ¬ major < 0 ∧ ¬ major ≥ .ofNat NDEV ∧ major = CONSOLE

/-- `fileread` on an inode. -/
def readInode (f : FPtr) (ip : IPtr) (n : Int) : FsProg Int := do
  issue (.ilock ip)
  let d ← issue (.filedata f)
  let b ← issue (.readi ip d.off (n % 2 ^ 32).toNat)
  -- copyout
  let ok ← issue .choice
  (if ok ∧ b ≠ [] then issue (.setOff f ((d.off + b.length) % 2 ^ 32)) else pure ())
  issue (.iunlock ip)
  return if ok then (b.length : Int) else -1

/-- Read from a file. -/
def fileread (f : FPtr) (n : Int) : FsProg Int := do
  let d ← issue (.filedata f)
  if ¬ d.readable then return -1
  else
    match d.type with
    | .pipe => transfer n
    | .device => if devsw d.major then transfer n else return -1
    | .inode =>
      match d.ip with
      | some ip => readInode f ip n
      | none => panic "kerneltrap"
    | .none => panic "fileread"

/-- The most that `filewrite` writes at a time. -/
def maxWrite : Nat := (MAXOPBLOCKS - 1 - 1 - 2) / 2 * BSIZE

/-- The loop of `filewrite`, from byte `i` of `n` on.  Every round but the last writes at
least one byte, so `n` rounds are enough. -/
def writeLoop (f : FPtr) (ip : IPtr) (src : Str) (n : Int) : Nat → Nat → FsProg Int
  | 0, i => return if (i : Int) = n then n else -1
  | rounds + 1, i =>
    if (i : Int) < n then do
      let n1 := min (n - i).toNat maxWrite
      issue (.ilock ip)
      let d ← issue (.filedata f)
      let r ← issue (.writeUser ip d.off n1 ((src.drop i).take n1))
      (if 0 < r then issue (.setOff f ((d.off + r.toNat) % 2 ^ 32)) else pure ())
      issue (.iunlock ip)
      if r ≠ n1 then return if (i : Int) = n then n else -1
      else writeLoop f ip src n rounds (i + n1)
    else return if (i : Int) = n then n else -1

/-- Write to a file the bytes `src`, or as many as there are at the user address. -/
def filewrite (f : FPtr) (src : Str) (n : Int) : FsProg Int := do
  let d ← issue (.filedata f)
  if ¬ d.writable then return -1
  else
    match d.type with
    | .pipe => transfer n
    | .device => if devsw d.major then transfer n else return -1
    | .inode =>
      match d.ip with
      | some ip => writeLoop f ip src n n.toNat 0
      | none => panic "kerneltrap"
    | .none => panic "filewrite"

/-- Get metadata about a file. -/
def filestat (f : FPtr) : FsProg Int := do
  let d ← issue (.filedata f)
  if d.type = .inode ∨ d.type = .device then
    match d.ip with
    | some ip =>
      issue (.ilock ip)
      let _ ← issue (.inum ip)
      let _ ← issue (.fields ip)
      let _ ← issue (.size ip)
      issue (.iunlock ip)
      -- copyout
      let ok ← issue .choice
      return if ok then 0 else -1
    | none => panic "kerneltrap"
  else return -1

/-- A call on an open file. -/
def onFile (go : FPtr → FsProg Int) (n : Int) : FsProg Int := do
  match ← argfd n with
  | none => return -1
  | some (_, f) => go f

def sysRead (fd n : Int) : FsProg Int := onFile (fun f => fileread f n) fd

def sysWrite (fd : Int) (src : Str) (n : Int) : FsProg Int := onFile (fun f => filewrite f src n) fd

def sysFstat (fd : Int) : FsProg Int := onFile filestat fd

/-! ### Pipes -/

/-- Two files for the ends of a new pipe. -/
def pipealloc : FsProg (Option (FPtr × FPtr)) := do
  match ← issue .filealloc with
  | none => return none
  | some f0 =>
    match ← issue .filealloc with
    | none =>
      fileclose f0
      return none
    | some f1 =>
      let ok ← issue (.pipeinit f0 f1)
      if ok then return some (f0, f1)
      else
        fileclose f0
        fileclose f1
        return none

/-- The error returns of `sys_pipe` once it has the files. -/
def pipeBad (rf wf : FPtr) : FsProg Int := do
  fileclose rf
  fileclose wf
  return -1

def sysPipe : FsProg Int := do
  match ← pipealloc with
  | none => return -1
  | some (rf, wf) =>
    match ← issue (.fdalloc rf) with
    | none => pipeBad rf wf
    | some fd0 =>
      match ← issue (.fdalloc wf) with
      | none =>
        issue (.clearFd fd0)
        pipeBad rf wf
      | some fd1 =>
        -- copyout, twice
        let ok ← issue .choice
        if ok then return 0
        else
          issue (.clearFd fd0)
          issue (.clearFd fd1)
          pipeBad rf wf

/-! ### Links -/

/-- The label `bad` of `sys_link`: undo the increment. -/
def linkBad (ip : IPtr) : FsProg Int := do
  issue (.ilock ip)
  let f ← issue (.fields ip)
  issue (.iupdate ip { f with nlink := f.nlink - 1 })
  iunlockput ip
  return -1

/-- Create the path `new` as a link to the same inode as `old`. -/
def sysLink (old new : Str) : FsProg Int := do
  match ← namei old with
  | none => return -1
  | some ip =>
    issue (.ilock ip)
    let f ← issue (.fields ip)
    if f.type = T_DIR then
      iunlockput ip
      return -1
    else
      issue (.iupdate ip { f with nlink := f.nlink + 1 })
      issue (.iunlock ip)
      match ← nameiparent new with
      | none => linkBad ip
      | some (dp, name) =>
        issue (.ilock dp)
        let inum ← issue (.inum ip)
        let r ← dirlink dp name inum
        if r < 0 then
          iunlockput dp
          linkBad ip
        else
          iunlockput dp
          iput ip
          return 0

/-- The names that every directory has. -/
def dot : Str := [46]

def dotdot : Str := [46, 46]

/-- `sys_unlink` once the entry to remove is found: `ip` is at `off` in `dp`. -/
def unlinkEntry (dp ip : IPtr) (off : Nat) : FsProg Int := do
  let n ← issue (.writei dp off Dirent.zero.bytes)
  (if n ≠ DIRENT then panic "unlink: writei" else pure ())
  let f ← issue (.fields ip)
  (if f.type = T_DIR then do
    let fd ← issue (.fields dp)
    issue (.iupdate dp { fd with nlink := fd.nlink - 1 })
  else pure ())
  iunlockput dp
  let f ← issue (.fields ip)
  issue (.iupdate ip { f with nlink := f.nlink - 1 })
  iunlockput ip
  return 0

def sysUnlink (path : Str) : FsProg Int := do
  match ← nameiparent path with
  | none => return -1
  | some (dp, name) =>
    issue (.ilock dp)
    -- Cannot unlink "." or "..".
    if namecmp name dot = 0 ∨ namecmp name dotdot = 0 then
      iunlockput dp
      return -1
    else
      match ← dirlookup dp name with
      | none =>
        iunlockput dp
        return -1
      | some (ip, off) =>
        issue (.ilock ip)
        let f ← issue (.fields ip)
        if f.nlink < 1 then panic "unlink: nlink < 1"
        else
          let empty ← (if f.type = T_DIR then isdirempty ip else pure true)
          if empty then unlinkEntry dp ip off
          else
            iunlockput ip
            iunlockput dp
            return -1

/-! ### Creating -/

/-- The entries "." and ".." that `create` makes in a new directory `ip` of `dp`. -/
def createDots (dp ip : IPtr) : FsProg Unit := do
  let fd ← issue (.fields dp)
  issue (.iupdate dp { fd with nlink := fd.nlink + 1 })
  -- No ip->nlink++ for ".": avoid cyclic ref count.
  let inum ← issue (.inum ip)
  let r ← dirlink ip dot inum
  if r < 0 then panic "create dots"
  else
    let dinum ← issue (.inum dp)
    let r ← dirlink ip dotdot dinum
    if r < 0 then panic "create dots" else return ()

/-- `create` once the name is known to be new. -/
def createNew (dp : IPtr) (name : Str) (type major minor : Int16) : FsProg IPtr := do
  let ip ← ialloc type
  issue (.ilockNew ip type)
  let f ← issue (.fields ip)
  issue (.iupdate ip { f with major := major, minor := minor, nlink := 1 })
  (if type = T_DIR then createDots dp ip else pure ())
  let inum ← issue (.inum ip)
  let r ← dirlink dp name inum
  if r < 0 then panic "create: dirlink"
  else
    iunlockput dp
    return ip

def create (path : Str) (type major minor : Int16) : FsProg (Option IPtr) := do
  match ← nameiparent path with
  | none => return none
  | some (dp, name) =>
    issue (.ilock dp)
    match ← dirlookup dp name with
    | some (ip, _) =>
      iunlockput dp
      issue (.ilock ip)
      let f ← issue (.fields ip)
      if type = T_FILE ∧ (f.type = T_FILE ∨ f.type = T_DEVICE) then return some ip
      else
        iunlockput ip
        return none
    | none =>
      let ip ← createNew dp name type major minor
      return some ip

def sysMkdir (path : Str) : FsProg Int := do
  match ← create path T_DIR 0 0 with
  | none => return -1
  | some ip =>
    iunlockput ip
    return 0

def sysMknod (path : Str) (major minor : Int) : FsProg Int := do
  match ← create path T_DEVICE (.ofInt major) (.ofInt minor) with
  | none => return -1
  | some ip =>
    iunlockput ip
    return 0

/-- The inode that `sys_open` opens, locked. -/
def openInode (path : Str) (omode : UInt32) : FsProg (Option IPtr) := do
  if omode &&& O_CREATE ≠ 0 then create path T_FILE 0 0
  else
    match ← namei path with
    | none => return none
    | some ip =>
      issue (.ilock ip)
      let f ← issue (.fields ip)
      if f.type = T_DIR ∧ omode ≠ O_RDONLY then
        iunlockput ip
        return none
      else return some ip

/-- `sys_open` once it has the inode and a descriptor for a new `struct file`. -/
def openFile (ip : IPtr) (omode : UInt32) (f : FPtr) (fd : Fd) : FsProg Int := do
  let i ← issue (.fields ip)
  issue (.fileopen f ip (i.type = T_DEVICE) i.major (omode &&& O_WRONLY = 0)
    (omode &&& O_WRONLY ≠ 0 ∨ omode &&& O_RDWR ≠ 0))
  (if omode &&& O_TRUNC ≠ 0 ∧ i.type = T_FILE then issue (.itrunc ip) else pure ())
  issue (.iunlock ip)
  return fd.val

def sysOpen (path : Str) (omode : UInt32) : FsProg Int := do
  match ← openInode path omode with
  | none => return -1
  | some ip =>
    let i ← issue (.fields ip)
    if i.type = T_DEVICE ∧ (i.major < 0 ∨ i.major ≥ .ofNat NDEV) then
      iunlockput ip
      return -1
    else
      match ← issue .filealloc with
      | none =>
        iunlockput ip
        return -1
      | some f =>
        match ← issue (.fdalloc f) with
        | none =>
          fileclose f
          iunlockput ip
          return -1
        | some fd => openFile ip omode f fd

def sysChdir (path : Str) : FsProg Int := do
  match ← namei path with
  | none => return -1
  | some ip =>
    issue (.ilock ip)
    let f ← issue (.fields ip)
    if f.type ≠ T_DIR then
      iunlockput ip
      return -1
    else
      issue (.iunlock ip)
      let old ← issue .cwd
      iput old
      issue (.setCwd (some ip))
      return 0

/-! ### Processes -/

/-- The part of `struct proghdr` that `exec` reads. -/
structure Proghdr where
  type : Nat
  off : Nat
  vaddr : Nat
  filesz : Nat
  memsz : Nat

/-- The program header that some bytes hold. -/
def Proghdr.ofBytes (b : Str) : Proghdr where
  type := ofLE (b.take 4)
  off := ofLE ((b.drop 8).take 8)
  vaddr := ofLE ((b.drop 16).take 8)
  filesz := ofLE ((b.drop 32).take 8)
  memsz := ofLE ((b.drop 40).take 8)

def PROGHDR : Nat := 56

def ELFHDR : Nat := 64

def ELF_MAGIC : Nat := 0x464C457F

def PGSIZE : Nat := 4096

/-- Load a program segment, the `n` pages of it from `i` on. -/
def loadseg (ip : IPtr) (offset sz : Nat) : Nat → Nat → FsProg Bool
  | 0, _ => return true
  | n + 1, i =>
    if i < sz then do
      -- walkaddr
      let ok ← issue .choice
      if !ok then panic "loadseg: address should exist"
      else
        let m := min (sz - i) PGSIZE
        let b ← issue (.readi ip ((offset + i) % 2 ^ 32) m)
        if b.length ≠ m then return false
        else loadseg ip offset sz n (i + PGSIZE)
    else return true

/-- Load the program, from the program header at `off` on. -/
def loadSegs (ip : IPtr) : Nat → Nat → FsProg Bool
  | 0, _ => return true
  | n + 1, off => do
    let b ← issue (.readi ip (off % 2 ^ 32) PROGHDR)
    let ph := Proghdr.ofBytes b
    if b.length ≠ PROGHDR then return false
    else if ph.type ≠ 1 then loadSegs ip n (off + PROGHDR)
    else if ph.memsz < ph.filesz then return false
    else if (ph.vaddr + ph.memsz) % 2 ^ 64 < ph.vaddr then return false
    else
      -- uvmalloc
      let ok ← issue .choice
      if !ok then return false
      else if ph.vaddr % PGSIZE ≠ 0 then return false
      else
        let sz := ph.filesz % 2 ^ 32
        let ok ← loadseg ip (ph.off % 2 ^ 32) sz (sz / PGSIZE + 1) 0
        if ok then loadSegs ip n (off + PROGHDR) else return false

/-- Read the ELF file `ip` into memory. -/
def loadElf (ip : IPtr) : FsProg Bool := do
  let b ← issue (.readi ip 0 ELFHDR)
  if b.length ≠ ELFHDR then return false
  else if ofLE (b.take 4) ≠ ELF_MAGIC then return false
  else
    -- proc_pagetable
    let ok ← issue .choice
    if !ok then return false
    else loadSegs ip (ofLE ((b.drop 56).take 2)) (ofLE ((b.drop 32).take 8))

def exec (path : Str) (argc : Nat) : FsProg Int := do
  match ← namei path with
  | none => return -1
  | some ip =>
    issue (.ilock ip)
    let ok ← loadElf ip
    iunlockput ip
    if !ok then return -1
    else
      -- the stack and its arguments
      let ok ← issue .choice
      return if ok then (argc : Int) else -1

/-- Copy descriptors for a child. -/
def dupFds : List Fd → (Fd → Option FPtr) → FsProg (Fd → Option FPtr)
  | [], ofile => return ofile
  | fd :: fds, ofile => do
    match ← issue (.ofile fd) with
    | none => dupFds fds ofile
    | some f =>
      issue (.filedup f)
      dupFds fds (Function.update ofile fd (some f))

def fork : FsProg Int := do
  match ← issue .allocproc with
  | none => return -1
  | some (np, pid) =>
    -- uvmcopy
    let ok ← issue .choice
    if !ok then
      issue (.freeproc np)
      return -1
    else
      let ofile ← dupFds (List.finRange NOFILE) fun _ => none
      let ip ← issue .cwd
      issue (.idup ip)
      issue (.spawn np ofile ip)
      return pid

/-- Close descriptors. -/
def closeFds : List Fd → FsProg Unit
  | [] => return ()
  | fd :: fds => do
    match ← issue (.ofile fd) with
    | none => closeFds fds
    | some f =>
      fileclose f
      issue (.clearFd fd)
      closeFds fds

/-- Exit the current process.  An exited process remains in the zombie state. -/
def exit : FsProg Int := do
  let init ← issue .isInit
  if init then panic "init exiting"
  else
    closeFds (List.finRange NOFILE)
    let ip ← issue .cwd
    iput ip
    issue (.setCwd none)
    issue .zombie
    return 0

end Programs

/-! ### System calls -/

/-- A string argument; `none` when `argstr` fails. -/
abbrev ArgStr : Type := Option Str

/-- The calls that change the tree of files. -/
inductive FsCall where
  | sysOpen (path : ArgStr) (omode : UInt32)
  | sysMkdir (path : ArgStr)
  | sysMknod (path : ArgStr) (major minor : Int)
  | sysLink (old new : ArgStr)
  | sysUnlink (path : ArgStr)
  | sysChdir (path : ArgStr)
  | sysClose (fd : Int)
  | exit

/-- A system call. -/
inductive Syscall where
  | file (c : FsCall)
  | sysDup (fd : Int)
  | sysExec (path : ArgStr) (argc : Nat)
  | fork
  | sysPipe
  | sysRead (fd n : Int)
  | sysWrite (fd : Int) (src : Str) (n : Int)
  | sysFstat (fd : Int)

/-- The program of a call on a string argument. -/
def withArg (f : Str → FsProg Int) : ArgStr → FsProg Int
  | none => return -1
  | some s => f s

def FsCall.prog : FsCall → FsProg Int
  | .sysOpen path omode => withArg (fun path => Sys.sysOpen path omode) path
  | .sysMkdir path => withArg Sys.sysMkdir path
  | .sysMknod path major minor => withArg (fun path => Sys.sysMknod path major minor) path
  | .sysLink old new => withArg (fun old => withArg (fun new => Sys.sysLink old new) new) old
  | .sysUnlink path => withArg Sys.sysUnlink path
  | .sysChdir path => withArg Sys.sysChdir path
  | .sysClose fd => Sys.sysClose fd
  | .exit => Sys.exit

def Syscall.prog : Syscall → FsProg Int
  | .file c => c.prog
  | .sysDup fd => Sys.sysDup fd
  | .sysExec path argc => withArg (fun path => Sys.exec path argc) path
  | .fork => Sys.fork
  | .sysPipe => Sys.sysPipe
  | .sysRead fd n => Sys.sysRead fd n
  | .sysWrite fd src n => Sys.sysWrite fd src n
  | .sysFstat fd => Sys.sysFstat fd

end Xv6.Sys
