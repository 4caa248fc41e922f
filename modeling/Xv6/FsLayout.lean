/-
Xv6/FsLayout.lean

The on-disk format of kernel/fs.h.

The super block says where the inode blocks, the free map and the data blocks
are.  A dinode is 64 bytes of an inode block; an indirect block is an array of
NINDIRECT block numbers; the free map has one bit for each block of the disk.

`dinode`, `word` and `bitAt` read these from a disk.  What a store changes is
said in terms of them: `dinode_setDinode`, `word_setWord`.
-/
import Xv6.Param

namespace Xv6

open Function List Bytes

/-! ### Constants and the super block -/

/-- Root i-number. -/
def ROOTINO : Nat := 1

def NDIRECT : Nat := 12

/-- Block numbers in an indirect block. -/
def NINDIRECT : Nat := BSIZE / 4

/-- Most blocks of a file. -/
def MAXFILE : Nat := NDIRECT + NINDIRECT

/-- Bytes of `struct dinode`. -/
def DINODE : Nat := 64

/-- Inodes per block. -/
def IPB : Nat := BSIZE / DINODE

/-- Bitmap bits per block. -/
def BPB : Nat := BSIZE * 8

/-- `struct superblock`, as far as file system code reads it. -/
structure SuperBlock where
  /-- Size of the file system image in blocks. -/
  size : Nat
  /-- Number of data blocks. -/
  nblocks : Nat
  ninodes : Nat
  inodestart : Nat
  bmapstart : Nat
  deriving DecidableEq

namespace SuperBlock

variable (sb : SuperBlock)

/-- `IBLOCK(i, sb)`: the block containing inode `i`. -/
def iblock (i : Nat) : Nat := i / IPB + sb.inodestart

/-- `BBLOCK(b, sb)`: the block of the free map containing the bit of block `b`. -/
def bblock (b : Nat) : Nat := b / BPB + sb.bmapstart

/-- The first data block. -/
def datastart : Nat := sb.size - sb.nblocks

/-- The regions are in the order that `mkfs` lays them out, and do not overlap. -/
structure Layout : Prop where
  boot : 0 < sb.inodestart
  inodes : ∀ i, i < sb.ninodes → sb.iblock i < sb.bmapstart
  data : sb.bmapstart ≤ sb.datastart
  bitmap : ∀ b, b < sb.size → sb.bblock b < sb.datastart
  /-- `balloc` counts blocks in an `int`. -/
  size : sb.size + BPB ≤ 2 ^ 31

end SuperBlock

/-! ### Dinodes -/

/-- `struct dinode`, which is also the part of `struct inode` that lives on disk. -/
structure DInode where
  type : Int16
  major : Int16
  minor : Int16
  nlink : Int16
  size : UInt32
  addrs : Fin (NDIRECT + 1) → UInt32
  deriving DecidableEq

namespace DInode

/-- All fields zero. -/
def zero : DInode := ⟨0, 0, 0, 0, 0, fun _ => 0⟩

/-- The fields in memory order. -/
def bytes (di : DInode) : List UInt8 :=
  toLE 2 di.type.toUInt16.toNat ++ (toLE 2 di.major.toUInt16.toNat ++
    (toLE 2 di.minor.toUInt16.toNat ++ (toLE 2 di.nlink.toUInt16.toNat ++
      (toLE 4 di.size.toNat ++
        (List.ofFn di.addrs).flatMap fun a => toLE 4 a.toNat))))

/-- The `k`-byte field at offset `off`. -/
def field (l : List UInt8) (off k : Nat) : Nat := ofLE ((l.drop off).take k)

/-- The dinode with the given bytes. -/
def ofBytes (l : List UInt8) : DInode where
  type := (UInt16.ofNat (field l 0 2)).toInt16
  major := (UInt16.ofNat (field l 2 2)).toInt16
  minor := (UInt16.ofNat (field l 4 2)).toInt16
  nlink := (UInt16.ofNat (field l 6 2)).toInt16
  size := UInt32.ofNat (field l 8 4)
  addrs := fun j => UInt32.ofNat (field l (12 + 4 * j) 4)

theorem bytes_length (di : DInode) : di.bytes.length = DINODE := by
  rfl

/-- A field after a prefix of known length. -/
theorem field_append {p l : List UInt8} {off k : Nat} (h : p.length ≤ off) :
    field (p ++ l) off k = field l (off - p.length) k := by
  unfold field
  rw [drop_append, drop_eq_nil_of_le h, nil_append]

theorem field_toLE (k v : Nat) (l : List UInt8) : field (toLE k v ++ l) 0 k = v % 256 ^ k := by
  unfold field
  rw [drop_zero, take_append_of_le_length (by simp), take_of_length_le (by simp),
    ofLE_toLE]

theorem toNat_mod (a : UInt32) : a.toNat % 256 ^ 4 = a.toNat := by
  refine Nat.mod_eq_of_lt (lt_of_lt_of_eq a.toNat_lt ?_)
  decide

theorem field_flatMap (l : List UInt32) {j : Nat} (h : j < l.length) :
    field (l.flatMap fun a => toLE 4 a.toNat) (4 * j) 4 = l[j].toNat := by
  induction l generalizing j with
  | nil => cases h
  | cons a l ih =>
    rw [flatMap_cons]
    cases j with
    | zero =>
      rw [field_toLE, toNat_mod]
      rfl
    | succ j =>
      have hj : j < l.length := by simpa using h
      rw [field_append (by simp), toLE_length,
        show 4 * (j + 1) - 4 = 4 * j by omega, ih hj]
      rfl

/-- **Round trip**: what was stored is what is loaded. -/
theorem ofBytes_bytes (di : DInode) : ofBytes di.bytes = di := by
  have hs : ∀ x : Int16, (UInt16.ofNat (x.toUInt16.toNat % 256 ^ 2)).toInt16 = x := by
    intro x
    have hlt : x.toUInt16.toNat < 256 ^ 2 := lt_of_lt_of_eq x.toUInt16.toNat_lt (by decide)
    rw [Nat.mod_eq_of_lt hlt, UInt16.ofNat_toNat]
    rfl
  rcases di with ⟨t, ma, mi, nl, sz, addrs⟩
  unfold ofBytes bytes
  congr 1
  · rw [field_toLE, hs]
  · rw [field_append (by simp), toLE_length, field_toLE, hs]
  · rw [field_append (by simp), field_append (by simp), toLE_length, toLE_length,
      field_toLE, hs]
  · rw [field_append (by simp), field_append (by simp), field_append (by simp), toLE_length,
      toLE_length, toLE_length, field_toLE, hs]
  · rw [field_append (by simp), field_append (by simp), field_append (by simp),
      field_append (by simp)]
    simp only [toLE_length]
    rw [field_toLE, toNat_mod, UInt32.ofNat_toNat]
  · funext j
    rw [field_append (by simp; omega), field_append (by simp; omega), field_append (by simp; omega),
      field_append (by simp; omega), field_append (by simp; omega)]
    simp only [toLE_length]
    rw [show 12 + 4 * (j : Nat) - 2 - 2 - 2 - 2 - 4 = 4 * (j : Nat) by omega,
      field_flatMap _ (by rw [length_ofFn]; exact j.isLt), List.getElem_ofFn, UInt32.ofNat_toNat]

theorem field_replicate (n off k : Nat) : field (List.replicate n 0) off k = 0 := by
  unfold field
  rw [drop_replicate, take_replicate, ofLE_replicate_zero]

/-- A dinode of zero bytes. -/
theorem ofBytes_zero : ofBytes (List.replicate DINODE 0) = zero := by
  unfold ofBytes
  simp only [field_replicate]
  rfl

end DInode

/-- Dinode `k` of an inode block. -/
def getDinode (blk : Block) (k : Nat) : DInode := DInode.ofBytes (blk.slice (DINODE * k) DINODE)

theorem getDinode_zero (k : Nat) : getDinode zero k = DInode.zero := by
  have hs : (zero : Block).slice (DINODE * k) DINODE = List.replicate DINODE 0 := by
    simp only [slice, get_zero, map_const', length_range]
  rw [getDinode, hs, DInode.ofBytes_zero]

/-- The inode block with dinode `k` replaced. -/
def putDinode (blk : Block) (k : Nat) (di : DInode) : Block := blk.patch (DINODE * k) di.bytes

theorem getDinode_putDinode (blk : Block) {k : Nat} (hk : k < IPB) (di : DInode) (k' : Nat) :
    getDinode (putDinode blk k di) k' = if k' = k then di else getDinode blk k' := by
  have hlen := di.bytes_length
  have hfit : DINODE * k + DINODE ≤ BSIZE := by
    have hk' : k < 16 := hk
    show 64 * k + 64 ≤ 1024
    omega
  unfold getDinode putDinode
  by_cases hkk : k' = k
  · subst hkk
    have hs := slice_patch_self blk (DINODE * k') di.bytes (by rw [hlen]; exact hfit)
    rw [hlen] at hs
    rw [hs, if_pos rfl, DInode.ofBytes_bytes]
  · rw [if_neg hkk, slice_patch_disjoint]
    show 64 * k' + 64 ≤ 64 * k ∨ 64 * k + 64 ≤ 64 * k'
    omega

/-! ### Reading a disk -/

section Disk

variable (sb : SuperBlock)

/-- Dinode `i` of a disk. -/
def dinode (d : Disk) (i : Nat) : DInode := getDinode (d (sb.iblock i)) (i % IPB)

/-- The disk with dinode `i` replaced. -/
def setDinode (d : Disk) (i : Nat) (di : DInode) : Disk :=
  update d (sb.iblock i) (putDinode (d (sb.iblock i)) (i % IPB) di)

/-- The bit of block `b` in the free map. -/
def bitAt (d : Disk) (b : Nat) : Bool := (d (sb.bblock b)).testBit (b % BPB)

/-- Entry `j` of an indirect block. -/
def word (blk : Block) (j : Nat) : Nat := blk.readLE (4 * j) 4

/-- The indirect block with entry `j` replaced. -/
def setWord (blk : Block) (j v : Nat) : Block := blk.writeLE (4 * j) 4 v

theorem dinode_setDinode (d : Disk) (i : Nat) (di : DInode) (i' : Nat) :
    dinode sb (setDinode sb d i di) i' = if i' = i then di else dinode sb d i' := by
  have hi : i % IPB < IPB := Nat.mod_lt _ (by decide)
  unfold dinode setDinode
  by_cases hb : sb.iblock i' = sb.iblock i
  · rw [hb, update_self, getDinode_putDinode _ hi]
    have hdiv : i' / IPB = i / IPB := Nat.add_right_cancel hb
    refine if_congr ⟨fun hm => ?_, fun hii => by rw [hii]⟩ rfl rfl
    rw [← Nat.div_add_mod i' IPB, ← Nat.div_add_mod i IPB, hdiv, hm]
  · rw [update_of_ne hb, if_neg fun hii => hb (by rw [hii])]

theorem word_zero (j : Nat) : word zero j = 0 := readLE_zero _ _

theorem word_setWord (blk : Block) {j v : Nat} (hj : j < NINDIRECT) (hv : v < 2 ^ 32) (j' : Nat) :
    word (setWord blk j v) j' = if j' = j then v else word blk j' := by
  unfold word setWord
  by_cases hjj : j' = j
  · subst hjj
    have hfit : 4 * j' + 4 ≤ BSIZE := by
      have hj' : j' < 256 := hj
      show 4 * j' + 4 ≤ 1024
      omega
    rw [if_pos rfl, readLE_writeLE_self blk hfit (lt_of_lt_of_eq hv (by decide))]
  · rw [if_neg hjj, readLE_writeLE_disjoint]
    omega

end Disk

end Xv6
