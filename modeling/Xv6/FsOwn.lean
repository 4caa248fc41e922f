/-
Xv6/FsOwn.lean

Which block belongs to what.

A file system refers to blocks from slots: the direct entries and the indirect
pointer of an inode, and the entries of an indirect block.  `Owned` says that
the free map and the slots agree: a data block is marked in the map exactly
when some slot refers to it, and no two slots refer to the same block.

The inodes are given by a function, so that one of them can be the in-memory
copy that the running call is changing while the others are read from disk.
In the middle of `itrunc` some slots still hold the number of a block that is
already free; the predicate `L` says which slots count.

`balloc_spec` and `bfree_spec` say what the allocator does to the free map,
`Owned.take` and `Owned.give` what this means for ownership.
-/
import Xv6.Fs
import Xv6.Lib.Safe

namespace Xv6.Fs

open Function

variable {sb : SuperBlock} {d d' : Disk} {b k v i : Nat}

/-! ### The free map -/

theorem bitAt_mark (d : Disk) (b x : Nat) :
    bitAt sb (update d (sb.bblock b) ((d (sb.bblock b)).orBit (b % BPB))) x
      = (bitAt sb d x || decide (x = b)) := by
  have hlt : b % BPB / 8 < BSIZE := Nat.div_lt_of_lt_mul (Nat.mod_lt _ (by decide))
  unfold bitAt
  by_cases hb : sb.bblock x = sb.bblock b
  · have hdiv : x / BPB = b / BPB := add_right_cancel hb
    rw [hb, update_self, Bytes.testBit_orBit _ hlt]
    refine congrArg _ (decide_eq_decide.mpr ⟨fun hm => ?_, fun hx => by rw [hx]⟩)
    rw [← Nat.div_add_mod x BPB, ← Nat.div_add_mod b BPB, hdiv, hm]
  · rw [update_of_ne hb, decide_eq_false (fun hx => hb (by rw [hx])), Bool.or_false]

theorem bitAt_clear (d : Disk) (b x : Nat) :
    bitAt sb (update d (sb.bblock b) ((d (sb.bblock b)).clearBit (b % BPB))) x
      = (bitAt sb d x && !decide (x = b)) := by
  have hlt : b % BPB / 8 < BSIZE := Nat.div_lt_of_lt_mul (Nat.mod_lt _ (by decide))
  unfold bitAt
  by_cases hb : sb.bblock x = sb.bblock b
  · have hdiv : x / BPB = b / BPB := add_right_cancel hb
    rw [hb, update_self, Bytes.testBit_clearBit _ hlt]
    refine congrArg (fun y => Bytes.testBit _ _ && !y)
      (decide_eq_decide.mpr ⟨fun hm => ?_, fun hx => by rw [hx]⟩)
    rw [← Nat.div_add_mod x BPB, ← Nat.div_add_mod b BPB, hdiv, hm]
  · rw [update_of_ne hb, decide_eq_false (fun hx => hb (by rw [hx]))]
    simp

theorem bitAt_congr (h : ∀ x, x < sb.size → d' (sb.bblock x) = d (sb.bblock x))
    (hb : b < sb.size) : bitAt sb d' b = bitAt sb d b := by
  unfold bitAt
  rw [h b hb]

/-- Every block outside the data region is marked. -/
def MetaMarked (sb : SuperBlock) (d : Disk) : Prop := ∀ b, b < sb.datastart → bitAt sb d b = true

/-- What `balloc` does: block `b` was free, is marked now, and is zero; no other block
changes outside the free map. -/
structure Alloc (sb : SuperBlock) (d : Disk) (b : Nat) (d' : Disk) : Prop where
  data : sb.datastart ≤ b
  lt : b < sb.size
  free : bitAt sb d b = false
  zero : d' b = Bytes.zero
  bits : ∀ x, x < sb.size → bitAt sb d' x = (bitAt sb d x || decide (x = b))
  low : ∀ x, x < sb.bmapstart → d' x = d x
  high : ∀ x, sb.datastart ≤ x → x ≠ b → d' x = d x

/-- The message when the disk is full. -/
def OutOfBlocks (msg : String) : Prop := msg = "balloc: out of blocks"

theorem scanFree_some {blk : Block} {lim bi : Nat} (h : scanFree blk lim = some bi) :
    bi < lim ∧ blk.testBit bi = false := by
  refine ⟨List.mem_range.mp (List.mem_of_find?_eq_some h), ?_⟩
  exact (Bytes.and_mask_eq_zero blk bi).mp (by simpa using List.find?_some h)

theorem ballocFrom_spec (hl : sb.Layout) (hm : MetaMarked sb d) (bs : List Nat) (hbs : ∀ b ∈ bs, b % BPB = 0) :
    Safe OutOfBlocks (ballocFrom sb d bs) fun r => Alloc sb d r.1 r.2 := by
  induction bs with
  | nil => exact Safe.error rfl
  | cons b bs ih =>
    rw [ballocFrom]
    rcases hs : scanFree (d (sb.bblock b)) (min BPB (sb.size - b)) with - | bi
    · exact ih fun x hx => hbs x (List.mem_cons_of_mem _ hx)
    obtain ⟨hlt, hfree⟩ := scanFree_some hs
    have hb0 : b % BPB = 0 := hbs b List.mem_cons_self
    have hbpb : bi < BPB := lt_of_lt_of_le hlt (min_le_left _ _)
    have hsize : b + bi < sb.size := by
      omega
    -- the bit found is the bit of block `b + bi`
    have hmod : (b + bi) % BPB = bi := by
      rw [Nat.add_mod, hb0, zero_add, Nat.mod_mod, Nat.mod_eq_of_lt hbpb]
    have hblock : sb.bblock (b + bi) = sb.bblock b := by
      have hdvd : BPB ∣ b := Nat.dvd_of_mod_eq_zero hb0
      unfold SuperBlock.bblock
      rw [Nat.add_div_of_dvd_right hdvd, Nat.div_eq_of_lt hbpb, add_zero]
    have hbit : bitAt sb d (b + bi) = false := by
      unfold bitAt
      rw [hblock, hmod]
      exact hfree
    have hdata : sb.datastart ≤ b + bi := by
      by_contra hlt
      rw [hm (b + bi) (by omega)] at hbit
      cases hbit
    have hmark : update d (sb.bblock b) ((d (sb.bblock b)).orBit bi) =
        update d (sb.bblock (b + bi))
          ((d (sb.bblock (b + bi))).orBit ((b + bi) % BPB)) := by
      rw [hblock, hmod]
    show Alloc sb d (b + bi) (bzero _ (b + bi))
    rw [hmark]
    have hmap := hl.bitmap _ hsize
    have hstart : sb.bmapstart ≤ sb.bblock (b + bi) := Nat.le_add_left _ _
    refine ⟨hdata, hsize, hbit, update_self .., fun x hx => ?_, fun x hx => ?_,
      fun x hx hxb => ?_⟩
    · rw [← bitAt_mark d (b + bi) x]
      refine bitAt_congr (fun y hy => ?_) hx
      -- the zeroed block is not in the free map
      have hy' := hl.bitmap y hy
      exact update_of_ne (by omega) _ _
    · unfold bzero
      rw [update_of_ne (by omega), update_of_ne (by omega)]
    · unfold bzero
      rw [update_of_ne hxb, update_of_ne (by omega)]

/-- **`balloc` returns a free data block**, or panics. -/
theorem balloc_spec (hl : sb.Layout) (hm : MetaMarked sb d) :
    Safe OutOfBlocks (balloc sb d) fun r => Alloc sb d r.1 r.2 := by
  refine ballocFrom_spec hl hm _ fun b hb => ?_
  obtain ⟨k, -, rfl⟩ := List.mem_map.mp hb
  exact Nat.mul_mod_left k BPB

/-- What `bfree` does: block `b` is not marked any more, and nothing changes outside the
free map. -/
structure Freed (sb : SuperBlock) (d : Disk) (b : Nat) (d' : Disk) : Prop where
  bits : ∀ x, bitAt sb d' x = (bitAt sb d x && !decide (x = b))
  low : ∀ x, x < sb.bmapstart → d' x = d x
  high : ∀ x, sb.datastart ≤ x → d' x = d x

/-- **`bfree`** of a marked block. -/
theorem bfree_spec (hl : sb.Layout) (hlt : b < sb.size) (hb : bitAt sb d b = true) :
    ∃ d', bfree sb d b = .ok d' ∧ Freed sb d b d' := by
  have hmap := hl.bitmap b hlt
  have hstart : sb.bmapstart ≤ sb.bblock b := Nat.le_add_left _ _
  refine ⟨_, ?_, fun x => bitAt_clear d b x, fun x hx => update_of_ne (by omega) _ _,
    fun x hx => update_of_ne (by omega) _ _⟩
  refine if_neg fun hz => ?_
  have hf := (Bytes.and_mask_eq_zero _ _).mp hz
  unfold bitAt at hb
  rw [hb] at hf
  cases hf

/-! ### Slots -/

/-- Where a block number is kept for an inode: the place of block `bn` of the file,
direct or in the indirect block, or the pointer to the indirect block. -/
inductive Slot where
  | data (bn : Nat)
  | indirect
  deriving DecidableEq

/-- Block `bn` of the file of an inode, 0 if there is none. -/
def blockAt (d : Disk) (di : DInode) (bn : Nat) : Nat :=
  if bn < NDIRECT then di.addr bn
  else if di.addr NDIRECT = 0 then 0
  else word (d (di.addr NDIRECT)) (bn - NDIRECT)

namespace Slot

/-- The slots that an inode has. -/
def Valid : Slot → Prop
  | data bn => bn < MAXFILE
  | indirect => True

/-- The block number in a slot. -/
def val (d : Disk) (di : DInode) : Slot → Nat
  | data bn => blockAt d di bn
  | indirect => di.addr NDIRECT

/-- The slots of an inode depend on its indirect block only. -/
theorem val_congr {di : DInode} (h : di.addr NDIRECT ≠ 0 → d' (di.addr NDIRECT) = d (di.addr NDIRECT))
    (s : Slot) : s.val d' di = s.val d di := by
  cases s with
  | indirect => rfl
  | data bn =>
    show blockAt d' di bn = blockAt d di bn
    unfold blockAt
    by_cases h0 : di.addr NDIRECT = 0
    · rw [if_pos h0, if_pos h0]
    · rw [h h0]

end Slot

theorem addr_setAddr (di : DInode) (hk : k < NDIRECT + 1) (hv : v < 2 ^ 32) (k' : Nat) :
    (di.setAddr k v).addr k' = if k' = k then v else di.addr k' := by
  unfold DInode.addr DInode.setAddr
  rcases eq_or_ne k' k with rfl | hkk
  · rw [if_pos rfl, dif_pos hk]
    simp only [if_true]
    exact UInt32.toNat_ofNat_of_lt' hv
  · simp only [hkk, if_false]

/-- The slots of an inode after a direct entry was changed. -/
theorem val_setAddr_direct (d : Disk) (di : DInode) (hk : k < NDIRECT) (hv : v < 2 ^ 32)
    (s : Slot) : s.val d (di.setAddr k v) = if s = .data k then v else s.val d di := by
  have hk' : k < NDIRECT + 1 := Nat.lt_succ_of_lt hk
  have hind : (di.setAddr k v).addr NDIRECT = di.addr NDIRECT := by
    rw [addr_setAddr di hk' hv, if_neg (by omega)]
  cases s with
  | indirect => exact hind
  | data bn =>
    show blockAt d _ bn = if Slot.data bn = .data k then v else blockAt d di bn
    unfold blockAt
    rw [hind, addr_setAddr di hk' hv]
    rcases eq_or_ne bn k with rfl | hbn
    · rw [if_pos hk, if_pos rfl, if_pos rfl]
    · rw [if_neg hbn, if_neg (fun he => hbn (Slot.data.inj he))]

/-! ### Ownership -/

/-- Slot `s` of the allocated inode `i` refers to block `b`. -/
def Uses (sb : SuperBlock) (d : Disk) (ino : Nat → DInode) (L : Nat → Slot → Prop) (i : Nat) (s : Slot)
    (b : Nat) : Prop :=
  i < sb.ninodes ∧ (ino i).type ≠ 0 ∧ s.Valid ∧ L i s ∧ s.val d (ino i) = b ∧ b ≠ 0

/-- The free map and the slots agree.  `K` are marked blocks that no slot refers to; in
a file system without leaks there are none. -/
structure Owned (sb : SuperBlock) (d : Disk) (ino : Nat → DInode) (L : Nat → Slot → Prop)
    (K : Nat → Prop) : Prop where
  data : ∀ i s b, Uses sb d ino L i s b → sb.datastart ≤ b ∧ b < sb.size
  inj : ∀ i s i' s' b, Uses sb d ino L i s b → Uses sb d ino L i' s' b → i = i' ∧ s = s'
  marked : ∀ b, sb.datastart ≤ b → b < sb.size →
    (bitAt sb d b = true ↔ (∃ i s, Uses sb d ino L i s b) ∨ K b)
  spare : ∀ i s b, K b → ¬ Uses sb d ino L i s b
  reserved : MetaMarked sb d

/-- Every slot counts. -/
def All (_ : Nat) (_ : Slot) : Prop := True

namespace Owned

variable {ino ino' : Nat → DInode} {L L' : Nat → Slot → Prop} {K : Nat → Prop} {i : Nat} {s : Slot}
  {b : Nat}

section

variable (h : Owned sb d ino L K)

include h

theorem bit (hu : Uses sb d ino L i s b) : bitAt sb d b = true :=
  (h.marked b (h.data i s b hu).1 (h.data i s b hu).2).mpr (.inl ⟨i, s, hu⟩)

/-- A block that the allocator returns is not in use. -/
theorem ne_of_alloc (ha : Alloc sb d b d') {c : Nat} (hu : Uses sb d ino L i s c) : c ≠ b := by
  rintro rfl
  have hfree := ha.free
  rw [h.bit hu] at hfree
  cases hfree

/-- **A block is taken into use** by a slot that was empty. -/
theorem take (hdata : sb.datastart ≤ b) (hlt : b < sb.size) (hfree : bitAt sb d b = false)
    (hbits : ∀ x, x < sb.size → bitAt sb d' x = (bitAt sb d x || decide (x = b)))
    (huses : ∀ j t c, Uses sb d' ino' L' j t c ↔ Uses sb d ino L j t c ∨ (j = i ∧ t = s ∧ c = b)) :
    Owned sb d' ino' L' K := by
  -- the block was not in use
  have hnot : ∀ j t, ¬ Uses sb d ino L j t b := by
    intro j t hu
    rw [h.bit hu] at hfree
    cases hfree
  have hK : ¬ K b := by
    intro hk
    rw [(h.marked b hdata hlt).mpr (.inr hk)] at hfree
    cases hfree
  refine ⟨?_, ?_, ?_, ?_, ?_⟩
  · intro j t c hu
    rcases (huses j t c).mp hu with hu | ⟨-, -, rfl⟩
    · exact h.data j t c hu
    · exact ⟨hdata, hlt⟩
  · intro j t j' t' c hu hu'
    rcases (huses j t c).mp hu with hu | ⟨rfl, rfl, rfl⟩ <;>
      rcases (huses j' t' _).mp hu' with hu' | ⟨rfl, rfl, hc⟩
    · exact h.inj j t j' t' c hu hu'
    · subst hc
      exact absurd hu (hnot j t)
    · exact absurd hu' (hnot j' t')
    · exact ⟨rfl, rfl⟩
  · intro c hc hc'
    rw [hbits c hc', Bool.or_eq_true, decide_eq_true_eq, h.marked c hc hc']
    constructor
    · rintro ((⟨j, t, hu⟩ | hk) | rfl)
      · exact .inl ⟨j, t, (huses j t c).mpr (.inl hu)⟩
      · exact .inr hk
      · exact .inl ⟨i, s, (huses i s c).mpr (.inr ⟨rfl, rfl, rfl⟩)⟩
    · rintro (⟨j, t, hu⟩ | hk)
      · rcases (huses j t c).mp hu with hu | ⟨-, -, rfl⟩
        · exact .inl (.inl ⟨j, t, hu⟩)
        · exact .inr rfl
      · exact .inl (.inr hk)
  · intro j t c hk hu
    rcases (huses j t c).mp hu with hu | ⟨-, -, rfl⟩
    · exact h.spare j t c hk hu
    · exact hK hk
  · intro c hc
    rw [hbits c (by omega), h.reserved c hc, Bool.true_or]

/-- **A block is given back**: the slot that referred to it does not count any more. -/
theorem give (hu : Uses sb d ino L i s b) (hbits : ∀ x, x < sb.size → bitAt sb d' x = (bitAt sb d x && !decide (x = b)))
    (huses : ∀ j t c, Uses sb d' ino' L' j t c ↔ Uses sb d ino L j t c ∧ c ≠ b) :
    Owned sb d' ino' L' K := by
  have hb := h.data i s b hu
  refine ⟨fun j t c hu => h.data j t c ((huses j t c).mp hu).1, ?_, ?_, ?_, ?_⟩
  · intro j t j' t' c hu hu'
    exact h.inj j t j' t' c ((huses j t c).mp hu).1 ((huses j' t' c).mp hu').1
  · intro c hc hc'
    rw [hbits c hc', Bool.and_eq_true, Bool.not_eq_true', decide_eq_false_iff_not, h.marked c hc hc']
    constructor
    · rintro ⟨⟨j, t, hu⟩ | hk, hne⟩
      · exact .inl ⟨j, t, (huses j t c).mpr ⟨hu, hne⟩⟩
      · exact .inr hk
    · rintro (⟨j, t, hu⟩ | hk)
      · exact ⟨.inl ⟨j, t, ((huses j t c).mp hu).1⟩, ((huses j t c).mp hu).2⟩
      · refine ⟨.inr hk, ?_⟩
        rintro rfl
        exact h.spare i s c hk hu
  · intro j t c hk hu
    exact h.spare j t c hk ((huses j t c).mp hu).1
  · intro c hc
    rw [hbits c (by omega), h.reserved c hc, decide_eq_false (by omega)]
    rfl

/-- Nothing changes hands. -/
theorem congr (hbits : ∀ x, x < sb.size → bitAt sb d' x = bitAt sb d x)
    (huses : ∀ j t c, Uses sb d' ino' L' j t c ↔ Uses sb d ino L j t c) : Owned sb d' ino' L' K := by
  refine ⟨fun j t c hu => h.data j t c ((huses j t c).mp hu), ?_, ?_, ?_, ?_⟩
  · intro j t j' t' c hu hu'
    exact h.inj j t j' t' c ((huses j t c).mp hu) ((huses j' t' c).mp hu')
  · intro c hc hc'
    rw [hbits c hc', h.marked c hc hc']
    exact or_congr (exists_congr fun j => exists_congr fun t => (huses j t c).symm) Iff.rfl
  · intro j t c hk hu
    exact h.spare j t c hk ((huses j t c).mp hu)
  · intro c hc
    rw [hbits c (lt_of_lt_of_le hc (Nat.sub_le _ _)), h.reserved c hc]

end

end Owned

variable {di di' : DInode}

theorem addr_congr (h : di'.addrs = di.addrs) (k : Nat) : di'.addr k = di.addr k := by
  unfold DInode.addr
  rw [h]

theorem Slot.val_addrs (h : di'.addrs = di.addrs) (s : Slot) : s.val d di' = s.val d di := by
  cases s with
  | indirect => exact addr_congr h NDIRECT
  | data bn =>
    show blockAt d di' bn = blockAt d di bn
    unfold blockAt
    rw [addr_congr h, addr_congr h]

variable {ino ino' : Nat → DInode} {K : Nat → Prop}

section

variable (hl : sb.Layout)

include hl

/-- Who uses what does not depend on what else is in the inodes and the inode blocks. -/
theorem uses_rewrite (h : Owned sb d ino All K) (hd : ∀ x, sb.bmapstart ≤ x → d' x = d x)
    (hino : ∀ i, i < sb.ninodes → (ino' i).type = (ino i).type ∧ (ino' i).addrs = (ino i).addrs)
    (j : Nat) (t : Slot) (c : Nat) : Uses sb d' ino' All j t c ↔ Uses sb d ino All j t c := by
  have hval : j < sb.ninodes → (ino j).type ≠ 0 → t.val d' (ino' j) = t.val d (ino j) := by
    intro hj hty
    rw [Slot.val_addrs (hino j hj).2]
    refine Slot.val_congr (fun h0 => hd _ ?_) t
    -- the indirect block is a data block
    exact hl.data.trans (h.data j .indirect _ ⟨hj, hty, trivial, trivial, rfl, h0⟩).1
  constructor
  · rintro ⟨hj, hty, hv, -, hc, h0⟩
    rw [(hino j hj).1] at hty
    exact ⟨hj, hty, hv, trivial, (hval hj hty).symm.trans hc, h0⟩
  · rintro ⟨hj, hty, hv, -, hc, h0⟩
    exact ⟨hj, (hino j hj).1 ▸ hty, hv, trivial, (hval hj hty).trans hc, h0⟩

theorem Owned.rewrite (h : Owned sb d ino All K) (hd : ∀ x, sb.bmapstart ≤ x → d' x = d x)
    (hino : ∀ i, i < sb.ninodes → (ino' i).type = (ino i).type ∧ (ino' i).addrs = (ino i).addrs) :
    Owned sb d' ino' All K :=
  h.congr (fun _ hx => bitAt_congr (fun _ _ => hd _ (Nat.le_add_left _ _)) hx) (uses_rewrite hl h hd hino)

theorem setDinode_high (hi : i < sb.ninodes) (di : DInode) {x : Nat}
    (hx : sb.bmapstart ≤ x) : setDinode sb d i di x = d x := by
  have hlt := hl.inodes i hi
  exact update_of_ne (by omega) _ _

theorem dinode_congr (h : ∀ x, x < sb.bmapstart → d' x = d x)
    (hi : i < sb.ninodes) : dinode sb d' i = dinode sb d i := by
  unfold dinode
  rw [h _ (hl.inodes i hi)]

end

end Xv6.Fs
