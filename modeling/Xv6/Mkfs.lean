/-
Xv6/Mkfs.lean

mkfs.c, the program that makes the first file system.

The state is the image file, sector by sector, with the counters `freeinode` and
`freeblock`.  Reading behind the end of the file ends the program; so does an assertion that
fails.  Both are errors here, with the text of `die` or of the assertion.  Calls of the host
do not fail otherwise, and the host is little-endian, so that `xint` and `xshort` do nothing.

An input file is what `open` and `read` make of it: it can be opened or not, and its bytes
come in chunks of any size up to that of the buffer.

`view` is the image with the free map that it is going to have.  On that disk the allocator of
the kernel returns `freeblock` (`balloc_view`), which is what makes `iappend` a `writei`.
-/
import Xv6.FileContent
import Xv6.SysFile

namespace Xv6.Mkfs

open Bytes Function List
open Sys (T_DIR T_FILE)

/-! ### The super block -/

/-- Size of the file system in blocks. -/
def FSSIZE : Nat := 1000

def NINODES : Nat := 200

def FSMAGIC : Nat := 0x10203040

def nbitmap : Nat := FSSIZE / (BSIZE * 8) + 1

def ninodeblocks : Nat := NINODES / IPB + 1

def nlog : Nat := LOGSIZE

/-- Number of meta blocks (boot, sb, nlog, inode, bitmap). -/
def nmeta : Nat := 2 + nlog + ninodeblocks + nbitmap

/-- Number of data blocks. -/
def nblocks : Nat := FSSIZE - nmeta

/-- `struct superblock`, all of it. -/
structure Super where
  magic : Nat
  size : Nat
  nblocks : Nat
  ninodes : Nat
  nlog : Nat
  logstart : Nat
  inodestart : Nat
  bmapstart : Nat
  deriving DecidableEq

namespace Super

/-- The fields in memory order. -/
def words (x : Super) : List Nat :=
  [x.magic, x.size, x.nblocks, x.ninodes, x.nlog, x.logstart, x.inodestart, x.bmapstart]

def bytes (x : Super) : List UInt8 := x.words.flatMap (toLE 4)

/-- `readsb`: the super block that is in a block. -/
def ofBlock (blk : Block) : Super where
  magic := word blk 0
  size := word blk 1
  nblocks := word blk 2
  ninodes := word blk 3
  nlog := word blk 4
  logstart := word blk 5
  inodestart := word blk 6
  bmapstart := word blk 7

/-- The part that file system code reads. -/
def toSuperBlock (x : Super) : SuperBlock where
  size := x.size
  nblocks := x.nblocks
  ninodes := x.ninodes
  inodestart := x.inodestart
  bmapstart := x.bmapstart

end Super

/-- The super block that `main` fills in. -/
def super : Super where
  magic := FSMAGIC
  size := FSSIZE
  nblocks := nblocks
  ninodes := NINODES
  nlog := nlog
  logstart := 2
  inodestart := 2 + nlog
  bmapstart := 2 + nlog + ninodeblocks

def sb : SuperBlock := super.toSuperBlock

/-- The kernel's `fsinit`, without the log. -/
def fsinit (d : Disk) : Except String SuperBlock :=
  let x := Super.ofBlock (d 1)
  if x.magic ≠ FSMAGIC then .error "invalid file system" else .ok x.toSuperBlock

/-! ### The program -/

/-- The image and the counters.  `inodeBlocks` are the sectors that `winode` has written. -/
structure St where
  img : Disk
  /-- Length of the image file in sectors. -/
  nsect : Nat
  freeinode : Nat
  freeblock : Nat
  inodeBlocks : List Nat

def wsect (s : St) (sec : Nat) (buf : Block) : St :=
  { s with img := update s.img sec buf, nsect := max s.nsect (sec + 1) }

def rsect (s : St) (sec : Nat) : Except String Block :=
  if sec < s.nsect then .ok (s.img sec) else .error "read"

def winode (s : St) (inum : Nat) (ip : DInode) : Except String St := do
  let bn := sb.iblock inum
  let buf ← rsect s bn
  let s := wsect s bn (putDinode buf (inum % IPB) ip)
  return { s with inodeBlocks := s.inodeBlocks ++ [bn] }

def rinode (s : St) (inum : Nat) : Except String DInode := do
  let buf ← rsect s (sb.iblock inum)
  return getDinode buf (inum % IPB)

def ialloc (s : St) (type : Int16) : Except String (Nat × St) := do
  let inum := s.freeinode
  let s ← winode { s with freeinode := inum + 1 } inum { DInode.zero with type := type, nlink := 1 }
  return (inum, s)

/-- The buffer of `balloc` after its loop. -/
def bitmap (used : Nat) : Block := (range used).foldl orBit Bytes.zero

def balloc (s : St) (used : Nat) : Except String St :=
  if used < BSIZE * 8 then .ok (wsect s sb.bmapstart (bitmap used)) else .error "used < BSIZE*8"

/-- `freeblock++`. -/
def St.bump (s : St) : St := { s with freeblock := s.freeblock + 1 }

/-- The block number in `addrs[k]`, which becomes a new one if it is 0. -/
def addrOrNew (s : St) (din : DInode) (k : Nat) : Nat × DInode × St :=
  if din.addr k = 0 then (s.freeblock, din.setAddr k s.freeblock, s.bump) else (din.addr k, din, s)

/-- The first half of the loop of `iappend`: the sector of block `fbn` of the file. -/
def sector (s : St) (din : DInode) (fbn : Nat) : Except String (Nat × DInode × St) :=
  if fbn < NDIRECT then .ok (addrOrNew s din fbn)
  else do
    let (ind, din, s) := addrOrNew s din NDIRECT
    let indirect ← rsect s ind
    let j := fbn - NDIRECT
    if word indirect j = 0 then
      return (s.freeblock, din, wsect s.bump ind (setWord indirect j s.freeblock))
    else return (word indirect j, din, s)

/-- The loop of `iappend`; the fuel bounds the number of iterations. -/
def appendLoop : Nat → St → DInode → Nat → List UInt8 → Except String (DInode × Nat × St)
  | 0, s, din, off, _ => .ok (din, off, s)
  | fuel + 1, s, din, off, p =>
    if p.length > 0 then
      let fbn := off / BSIZE
      if fbn < MAXFILE then do
        let (x, din, s) ← sector s din fbn
        let n1 := min p.length ((fbn + 1) * BSIZE - off)
        let buf ← rsect s x
        let s := wsect s x (buf.patch (off - fbn * BSIZE) (p.take n1))
        appendLoop fuel s din (off + n1) (p.drop n1)
      else .error "fbn < MAXFILE"
    else .ok (din, off, s)

/-- Append bytes to an inode. -/
def iappend (s : St) (inum : Nat) (p : List UInt8) : Except String St := do
  let din ← rinode s inum
  let (din, off, s) ← appendLoop p.length s din din.size.toNat p
  winode s inum (din.setSize off)

/-- An input file: its argument, whether it can be opened, and what the calls of `read` return. -/
structure Input where
  arg : Str
  opens : Bool
  chunks : List (List UInt8)
  terminated : 0 ∉ arg
  ne_nil : ∀ c ∈ chunks, c ≠ []
  length_le : ∀ c ∈ chunks, c.length ≤ BSIZE

/-- The bytes of "user/". -/
def userDir : Str := [117, 115, 101, 114, slash]

/-- Get rid of "user/". -/
def shortname (arg : Str) : Str := if strncmp arg userDir 5 = 0 then arg.drop 5 else arg

def underscore : UInt8 := 95

/-- The name in the file system, which has no leading '_'. -/
def stored (arg : Str) : Str :=
  if (shortname arg).headD 0 = underscore then (shortname arg).tail else shortname arg

/-- The body of the loop over the arguments. -/
def addFile (rootino : Nat) (s : St) (f : Input) : Except String St :=
  if slash ∈ shortname f.arg then .error "index(shortname, '/') == 0"
  else if f.opens = false then .error "open"
  else do
    let (inum, s) ← ialloc s T_FILE
    let s ← iappend s rootino (Dirent.bytes { inum := inum, name := stored f.arg })
    f.chunks.foldlM (fun s c => iappend s inum c) s

/-- The image file as `open` leaves it. -/
def empty : St where
  img := fun _ => Bytes.zero
  nsect := 0
  freeinode := 1
  freeblock := nmeta
  inodeBlocks := []

/-- Zero blocks, and the super block. -/
def start : St :=
  wsect ((range FSSIZE).foldl (fun s i => wsect s i Bytes.zero) empty) 1 (Bytes.zero.patch 0 super.bytes)

/-- Fix size of root inode dir, and write the free map. -/
def finish (s : St) (rootino : Nat) : Except String St := do
  let din ← rinode s rootino
  let off := (din.size.toNat / BSIZE + 1) * BSIZE
  let s ← winode s rootino (din.setSize off)
  balloc s s.freeblock

/-- The name ".". -/
def dot : Str := [46]

/-- The name "..". -/
def dotdot : Str := [46, 46]

/-- What mkfs makes of the files given to it. -/
def main (files : List Input) : Except String St := do
  let (rootino, s) ← ialloc start T_DIR
  if rootino ≠ ROOTINO then .error "rootino == ROOTINO"
  else do
    let s ← iappend s rootino (Dirent.bytes { inum := rootino, name := dot })
    let s ← iappend s rootino (Dirent.bytes { inum := rootino, name := dotdot })
    let s ← files.foldlM (addFile rootino) s
    finish s rootino

/-! ### Layout -/

theorem layout : sb.Layout := by
  refine ⟨by decide, fun i hi => ?_, by decide, fun b hb => ?_, by decide⟩
  · have hi' : i < 200 := hi
    show i / 16 + 32 < 45
    omega
  · have hb' : b < 1000 := hb
    show b / 8192 + 45 < 46
    omega

theorem datastart_eq : sb.datastart = nmeta := by decide

/-- The sectors of the inodes that the file system has. -/
theorem iblock_lt {i : Nat} (hi : i < NINODES) : sb.inodestart ≤ sb.iblock i ∧ sb.iblock i < sb.bmapstart :=
  ⟨Nat.le_add_left _ _, layout.inodes i hi⟩

/-! ### Sectors -/

@[simp] theorem wsect_img (s : St) (sec : Nat) (buf : Block) : (wsect s sec buf).img = update s.img sec buf :=
  rfl

@[simp] theorem wsect_freeblock (s : St) (sec : Nat) (buf : Block) : (wsect s sec buf).freeblock = s.freeblock := rfl

variable {s : St} {sec b : Nat}

theorem wsect_nsect (h : sec < s.nsect) (buf : Block) : (wsect s sec buf).nsect = s.nsect :=
  max_eq_left h

theorem rsect_ok (h : sec < s.nsect) : rsect s sec = .ok (s.img sec) := if_pos h

theorem rsect_error (h : s.nsect ≤ sec) : rsect s sec = .error "read" :=
  if_neg (not_lt.mpr h)

/-! ### The free map to be -/

theorem testBit_bitmap {used : Nat} (h : used ≤ BPB) (b : Nat) : (bitmap used).testBit b = decide (b < used) := by
  unfold bitmap
  induction used with
  | zero => simp [testBit]
  | succ n ih =>
    have hlt : n / 8 < BSIZE := Nat.div_lt_of_lt_mul (Nat.lt_of_succ_le h)
    rw [range_succ, foldl_append, foldl_cons, foldl_nil, testBit_orBit _ hlt, ih (by omega),
      ← Bool.decide_or]
    exact decide_eq_decide.mpr (by omega)

theorem bitmap_succ (used : Nat) : bitmap (used + 1) = (bitmap used).orBit used := by
  unfold bitmap
  rw [range_succ, foldl_append, foldl_cons, foldl_nil]

/-- The image with the free map that it is going to have. -/
def view (s : St) : Disk := update s.img sb.bmapstart (bitmap s.freeblock)

theorem view_of_ne (s : St) (h : b ≠ sb.bmapstart) : view s b = s.img b := update_of_ne h _ _

theorem view_bmap (s : St) : view s sb.bmapstart = bitmap s.freeblock := update_self ..

theorem view_wsect (s : St) (h : sec ≠ sb.bmapstart) (buf : Block) :
    view (wsect s sec buf) = update (view s) sec buf := update_comm h _ _ _

theorem bitAt_view (h : s.freeblock ≤ FSSIZE) (hb : b < BPB) : bitAt sb (view s) b = decide (b < s.freeblock) := by
  have hbb : sb.bblock b = sb.bmapstart := by
    unfold SuperBlock.bblock
    rw [Nat.div_eq_of_lt hb, zero_add]
  have hle : s.freeblock ≤ BPB := h.trans (by decide)
  unfold bitAt
  rw [hbb, view_bmap, testBit_bitmap hle, Nat.mod_eq_of_lt hb]

/-- What holds of the counters and of the sectors that no inode has yet. -/
structure Good (s : St) : Prop where
  nsect : s.nsect = FSSIZE
  low : nmeta ≤ s.freeblock
  high : s.freeblock ≤ FSSIZE
  fresh : ∀ b, s.freeblock ≤ b → b < FSSIZE → s.img b = Bytes.zero
  first : ∀ b, b < sb.inodestart → s.img b = start.img b

/-- **The allocator of the kernel returns `freeblock`**, as long as there is one. -/
theorem balloc_view (h : Good s) (hlt : s.freeblock < FSSIZE) :
    Fs.balloc sb (view s) = .ok (s.freeblock, view s.bump) := by
  have hscan : Fs.scanFree (bitmap s.freeblock) (min BPB (sb.size - 0)) = some s.freeblock := by
    have hbit := testBit_bitmap (h.high.trans (by decide : FSSIZE ≤ BPB))
    refine find?_range_eq_some.mpr ⟨?_, ?_, fun j hj => ?_⟩
    · rw [decide_eq_true_eq, and_mask_eq_zero, hbit]
      exact decide_eq_false (lt_irrefl _)
    · exact mem_range.mpr hlt
    · rw [Bool.not_eq_true', decide_eq_false_iff_not, and_mask_eq_zero, hbit]
      simp [hj]
  have hne : s.freeblock ≠ sb.bmapstart := by
    have hlow := h.low
    show s.freeblock ≠ 45
    have : nmeta = 46 := rfl
    omega
  have hlist : (range ((sb.size + BPB - 1) / BPB)).map (· * BPB) = [0] := by decide
  have hbb : sb.bblock 0 = sb.bmapstart := by decide
  unfold Fs.balloc
  rw [hlist]
  unfold Fs.ballocFrom
  simp only [hbb, view_bmap, hscan, zero_add, ← bitmap_succ, Fs.bzero]
  refine congrArg (fun d => Except.ok (s.freeblock, d)) (funext fun b => ?_)
  rcases eq_or_ne b s.freeblock with rfl | hb
  · rw [update_self, view_of_ne _ hne]
    exact (h.fresh _ le_rfl hlt).symm
  · rw [update_of_ne hb]
    unfold view St.bump
    rw [update_idem]

theorem Good.bump (h : Good s) (hlt : s.freeblock < FSSIZE) : Good s.bump :=
  ⟨h.nsect, h.low.trans (Nat.le_succ _), hlt, fun b hb => h.fresh b (Nat.le_of_succ_le hb), h.first⟩

/-- A sector that is in use, or that holds an inode, is written. -/
theorem Good.wsect (h : Good s) (hlow : sb.inodestart ≤ sec) (hhigh : sec < s.freeblock)
    (buf : Block) : Good (wsect s sec buf) := by
  have hlt : sec < s.nsect := by
    rw [h.nsect]
    exact lt_of_lt_of_le hhigh h.high
  refine ⟨(wsect_nsect hlt buf).trans h.nsect, h.low, h.high, fun b hb hb' => ?_, fun b hb => ?_⟩
  · have hne : b ≠ sec := by
      rintro rfl
      exact absurd hhigh (not_lt.mpr hb)
    rw [wsect_img, update_of_ne hne]
    exact h.fresh b hb hb'
  · rw [wsect_img, update_of_ne (by omega)]
    exact h.first b hb

end Xv6.Mkfs
