/-
Xv6/Param.lean

The constants of kernel/param.h and kernel/fs.h, and the types built on them
alone: a disk block is `BSIZE` bytes, and a disk is a map from block numbers to
blocks.
-/
import Xv6.Lib.Bytes

namespace Xv6

/-- Max number of blocks any file system operation writes. -/
def MAXOPBLOCKS : Nat := 10

/-- Max data blocks in the on-disk log. -/
def LOGSIZE : Nat := MAXOPBLOCKS * 3

/-- Size of the disk block cache. -/
def NBUF : Nat := MAXOPBLOCKS * 3

theorem NBUF_pos : 0 < NBUF := by decide

/-- Block size. -/
def BSIZE : Nat := 1024

/-- The contents of one disk block. -/
abbrev Block : Type := Bytes BSIZE

/-- A disk: block numbers to blocks. -/
abbrev Disk : Type := Nat → Block

end Xv6
