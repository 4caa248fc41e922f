/-
Xv6/Fs.lean

Blocks, inodes and file content of kernel/fs.c.

The functions run on a plain array of blocks, which is what the buffer cache
and the log give them (Bcache.lean).  They take the in-memory inode as a value
and return it changed.  A panic is an error with the kernel's message.

Copying to and from the caller's memory can fail, since the address may be a
user address: a source is a function that gives a byte or nothing at each
offset, a destination a predicate on offsets.
-/
import Xv6.FsLayout

namespace Xv6

open Function

/-! ### In-memory inodes -/

/-- The part of `struct inode` that the functions below work on. -/
structure Inode where
  inum : Nat
  di : DInode
  deriving DecidableEq

namespace DInode

/-- `addrs[k]`. -/
def addr (di : DInode) (k : Nat) : Nat :=
  if h : k < NDIRECT + 1 then (di.addrs ⟨k, h⟩).toNat else 0

/-- The dinode after `addrs[k] = v`. -/
def setAddr (di : DInode) (k v : Nat) : DInode :=
  { di with addrs := fun j => if j.val = k then UInt32.ofNat v else di.addrs j }

/-- The fields other than `addrs`. -/
def attrs (di : DInode) : DInode := { di with addrs := fun _ => 0 }

/-- The dinode after `type = t`. -/
def setType (di : DInode) (t : Int16) : DInode := { di with type := t }

/-- The dinode with other device numbers and another link count. -/
def setFields (di : DInode) (major minor nlink : Int16) : DInode :=
  { di with major := major, minor := minor, nlink := nlink }

/-- The dinode after `size = v`. -/
def setSize (di : DInode) (v : Nat) : DInode := { di with size := UInt32.ofNat v }

end DInode

/-- The inode after `addrs[k] = v`. -/
def Inode.setAddr (ip : Inode) (k v : Nat) : Inode := { ip with di := ip.di.setAddr k v }

namespace Fs

variable (sb : SuperBlock)

/-! ### Blocks -/

/-- Zero a block. -/
def bzero (d : Disk) (bno : Nat) : Disk := update d bno Bytes.zero

/-- The inner loop of `balloc`: the first clear bit among the first `lim`. -/
def scanFree (blk : Block) (lim : Nat) : Option Nat :=
  (List.range lim).find? fun bi => blk.get (bi / 8) &&& Bytes.mask bi = 0

/-- The outer loop of `balloc`, over the first block numbers of the free map's
blocks. -/
def ballocFrom (d : Disk) : List Nat → Except String (Nat × Disk)
  | [] => .error "balloc: out of blocks"
  | b :: bs =>
    let blk := d (sb.bblock b)
    match scanFree blk (min BPB (sb.size - b)) with
    | some bi =>
      -- mark block in use
      let d := update d (sb.bblock b) (blk.orBit bi)
      .ok (b + bi, bzero d (b + bi))
    | none => ballocFrom d bs

/-- Allocate a zeroed disk block. -/
def balloc (d : Disk) : Except String (Nat × Disk) :=
  ballocFrom sb d ((List.range ((sb.size + BPB - 1) / BPB)).map (· * BPB))

/-- Free a disk block. -/
def bfree (d : Disk) (b : Nat) : Except String Disk :=
  let blk := d (sb.bblock b)
  let bi := b % BPB
  if blk.get (bi / 8) &&& Bytes.mask bi = 0 then .error "freeing free block"
  else .ok (update d (sb.bblock b) (blk.clearBit bi))

/-! ### Inodes -/

/-- Copy a modified in-memory inode to disk. -/
def iupdate (d : Disk) (ip : Inode) : Disk := setDinode sb d ip.inum ip.di

/-- The search of `ialloc`: the first free inode. -/
def freeInode (d : Disk) : Option Nat :=
  ((List.range sb.ninodes).drop 1).find? fun inum => (dinode sb d inum).type = 0

/-- Allocate an inode, up to the call of `iget`: mark it as allocated by giving it a
type. -/
def ialloc (d : Disk) (type : Int16) : Except String (Nat × Disk) :=
  match freeInode sb d with
  | some inum => .ok (inum, setDinode sb d inum (DInode.zero.setType type))
  | none => .error "ialloc: no inodes"

/-- The block number in `addrs[k]`, allocated if necessary. -/
def addrOrAlloc (d : Disk) (ip : Inode) (k : Nat) : Except String (Nat × Disk × Inode) :=
  if ip.di.addr k = 0 then do
    let (b, d) ← balloc sb d
    return (b, d, ip.setAddr k b)
  else return (ip.di.addr k, d, ip)

/-- Return the disk block address of the `bn`th block in the inode.  If there is no
such block, allocate one. -/
def bmap (d : Disk) (ip : Inode) (bn : Nat) : Except String (Nat × Disk × Inode) :=
  if bn < NDIRECT then addrOrAlloc sb d ip bn
  else if bn - NDIRECT < NINDIRECT then do
    -- load indirect block, allocating if necessary
    let (ind, d, ip) ← addrOrAlloc sb d ip NDIRECT
    let j := bn - NDIRECT
    if word (d ind) j = 0 then do
      let (b, d) ← balloc sb d
      return (b, update d ind (setWord (d ind) j b), ip)
    else return (word (d ind) j, d, ip)
  else .error "bmap: out of range"

/-- One iteration of the first loop of `itrunc`. -/
def truncDirect (s : Disk × Inode) (i : Nat) : Except String (Disk × Inode) :=
  if s.2.di.addr i = 0 then return s
  else do
    let d ← bfree sb s.1 (s.2.di.addr i)
    return (d, s.2.setAddr i 0)

/-- One iteration of the second loop of `itrunc`, over the entries of the indirect
block. -/
def truncEntry (a : Block) (d : Disk) (j : Nat) : Except String Disk :=
  if word a j = 0 then return d else bfree sb d (word a j)

/-- The second part of `itrunc`: the entries of the indirect block, and the block. -/
def truncIndirect (d : Disk) (ip : Inode) : Except String (Disk × Inode) :=
  let ind := ip.di.addr NDIRECT
  if ind = 0 then return (d, ip)
  else do
    let d ← (List.range NINDIRECT).foldlM (truncEntry sb (d ind)) d
    let d ← bfree sb d ind
    return (d, ip.setAddr NDIRECT 0)

/-- Truncate inode (discard contents). -/
def itrunc (d : Disk) (ip : Inode) : Except String (Disk × Inode) := do
  let (d, ip) ← (List.range NDIRECT).foldlM (truncDirect sb) (d, ip)
  let (d, ip) ← truncIndirect sb d ip
  let ip := { ip with di := ip.di.setSize 0 }
  return (iupdate sb d ip, ip)

/-! ### File content -/

/-- The bytes that `either_copyin` gets from offset `a` on, up to `m` of them: it
stops at the first bad address. -/
def copyin (src : Nat → Option UInt8) : Nat → Nat → List UInt8
  | _, 0 => []
  | a, m + 1 =>
    match src a with
    | some x => x :: copyin src (a + 1) m
    | none => []

/-- The loop of `writei`; the fuel bounds the number of iterations.  Returns `tot` and
`off` at its end.  A chunk that cannot be copied whole stays in the buffer as far as it
was copied. -/
def writeLoop (src : Nat → Option UInt8) (n : Nat) :
    Nat → Disk → Inode → Nat → Nat → Except String (Nat × Nat × Disk × Inode)
  | 0, d, ip, tot, off => .ok (tot, off, d, ip)
  | fuel + 1, d, ip, tot, off =>
    if tot < n then do
      let (b, d, ip) ← bmap sb d ip (off / BSIZE)
      let m := min (n - tot) (BSIZE - off % BSIZE)
      let bytes := copyin src tot m
      let d := update d b ((d b).patch (off % BSIZE) bytes)
      if bytes.length < m then .ok (tot, off, d, ip)
      else writeLoop src n fuel d ip (tot + m) (off + m)
    else .ok (tot, off, d, ip)

/-- Write data to inode.  Returns the number of bytes successfully written, or -1. -/
def writei (d : Disk) (ip : Inode) (src : Nat → Option UInt8) (off n : UInt32) :
    Except String (Int × Disk × Inode) :=
  if off > ip.di.size ∨ off + n < off then .ok (-1, d, ip)
  else if (off + n).toNat > MAXFILE * BSIZE then .ok (-1, d, ip)
  else do
    let (tot, off, d, ip) ← writeLoop sb src n.toNat n.toNat d ip 0 off.toNat
    let ip := if off > ip.di.size.toNat then { ip with di := ip.di.setSize off } else ip
    -- write the inode back even if the size didn't change: bmap may have added a block
    return (tot, iupdate sb d ip, ip)

/-- The bytes that `either_copyout` stores at offset `a` on: it stops at the first bad
address. -/
def copyout (dst : Nat → Bool) : Nat → List UInt8 → List UInt8
  | _, [] => []
  | a, x :: xs => if dst a then x :: copyout dst (a + 1) xs else []

/-- The loop of `readi`; returns its result and the bytes copied out. -/
def readLoop (dst : Nat → Bool) (n : Nat) :
    Nat → Disk → Inode → Nat → Nat → List UInt8 → Except String (Int × List UInt8 × Disk × Inode)
  | 0, d, ip, tot, _, out => .ok (tot, out, d, ip)
  | fuel + 1, d, ip, tot, off, out =>
    if tot < n then do
      let (b, d, ip) ← bmap sb d ip (off / BSIZE)
      let m := min (n - tot) (BSIZE - off % BSIZE)
      let bytes := copyout dst tot ((d b).slice (off % BSIZE) m)
      if bytes.length < m then .ok (-1, out ++ bytes, d, ip)
      else readLoop dst n fuel d ip (tot + m) (off + m) (out ++ bytes)
    else .ok (tot, out, d, ip)

/-- Read data from inode.  Returns the number of bytes read, or -1, and the bytes. -/
def readi (d : Disk) (ip : Inode) (dst : Nat → Bool) (off n : UInt32) :
    Except String (Int × List UInt8 × Disk × Inode) :=
  if off > ip.di.size ∨ off + n < off then .ok (0, [], d, ip)
  else
    let n := if off + n > ip.di.size then ip.di.size - off else n
    readLoop sb dst n.toNat n.toNat d ip 0 off.toNat []

end Fs

end Xv6
