/-
Xv6/FsMap.lean

`bmap` and `itrunc` keep ownership.

`bmap` fills at most two slots of its inode, the indirect pointer and the slot
of the block asked for.  `Took` says what filling one slot does; `took_alloc`
is the case in which a block had to be allocated, and `Took.trans` composes the
two for a block behind the indirect pointer.

`itrunc` empties the slots one after the other.  Its loop over the indirect
block frees the entries without clearing them, so the loop invariant counts
only the entries not yet reached.
-/
import Xv6.FsOwn

namespace Xv6.Fs

open Function Safe Slot

variable {sb : SuperBlock} {d d' d₁ : Disk} {ino : Nat → DInode} {K : Nat → Prop} {ip ip' : Inode} {di di' : DInode}

/-! ### Filling one slot -/

theorem type_of_attrs (h : di'.attrs = di.attrs) : di'.type = di.type := by
  have ht : di'.attrs.type = di.attrs.type := by rw [h]
  exact ht

theorem size_of_attrs (h : di'.attrs = di.attrs) : di'.size = di.size := by
  have hs : di'.attrs.size = di.attrs.size := by rw [h]
  exact hs


/-- The inode that the running call works on is allocated, and `ino` shows the call's
copy of it. -/
structure Open (sb : SuperBlock) (ino : Nat → DInode) (ip : Inode) : Prop where
  lt : ip.inum < sb.ninodes
  type : ip.di.type ≠ 0
  cur : ino ip.inum = ip.di

/-- The inodes after the call has changed its copy. -/
def withInode (ino : Nat → DInode) (ip : Inode) : Nat → DInode := update ino ip.inum ip.di

theorem withInode_apply (ino : Nat → DInode) (ip : Inode) (i : Nat) :
    withInode ino ip i = if i = ip.inum then ip.di else ino i := update_apply _ _ _ _

theorem withInode_self (ino : Nat → DInode) (ip : Inode) : withInode ino ip ip.inum = ip.di :=
  update_self ..

variable {i b k bn j : Nat}

theorem withInode_of_ne (ino : Nat → DInode) (h : i ≠ ip.inum) :
    withInode ino ip i = ino i := update_of_ne h _ _

theorem Open.withInode (h : Open sb ino ip) : withInode ino ip = ino := by
  unfold Fs.withInode
  rw [← h.cur, update_eq_self]

variable {t s : Slot}

theorem Open.uses (h : Open sb ino ip) {L : Nat → Slot → Prop} (hv : t.Valid)
    (hL : L ip.inum t) (h0 : t.val d ip.di ≠ 0) : Uses sb d ino L ip.inum t (t.val d ip.di) := by
  refine ⟨h.lt, ?_, hv, hL, ?_, h0⟩
  · rw [h.cur]
    exact h.type
  · rw [h.cur]

/-- The inodes on disk after the call's copy was written back. -/
theorem dinode_iupdate (hl : sb.Layout) (hlow : ∀ x, x < sb.bmapstart → d₁ x = d x)
    (hi : i < sb.ninodes) : dinode sb (Fs.iupdate sb d₁ ip) i = withInode (dinode sb d) ip i := by
  unfold Fs.iupdate
  rw [dinode_setDinode, dinode_congr hl hlow hi, withInode_apply]

section Sync

variable (hl : sb.Layout) (h : Owned sb d₁ (withInode (dinode sb d) ip) All K)
  (hlow : ∀ x, x < sb.bmapstart → d₁ x = d x) (hlt : ip.inum < sb.ninodes) (hinum : ip'.inum = ip.inum)
  (htype : ip'.di.type = ip.di.type) (haddrs : ip'.di.addrs = ip.di.addrs)

include hl hlow hinum htype haddrs in
theorem sync_fields (hi : i < sb.ninodes) :
    (dinode sb (iupdate sb d₁ ip') i).type = (withInode (dinode sb d) ip i).type ∧
      (dinode sb (iupdate sb d₁ ip') i).addrs = (withInode (dinode sb d) ip i).addrs := by
  rw [dinode_iupdate hl hlow hi, withInode_apply, withInode_apply, hinum]
  by_cases hii : i = ip.inum
  · rw [if_pos hii, if_pos hii]
    exact ⟨htype, haddrs⟩
  · rw [if_neg hii, if_neg hii]
    exact ⟨rfl, rfl⟩

include hl h hlow hlt hinum htype haddrs

/-- When the call's copy has been written back, who uses what can be read off the disk. -/
theorem uses_sync (i : Nat) (t : Slot) (c : Nat) :
    Uses sb (iupdate sb d₁ ip') (dinode sb (iupdate sb d₁ ip')) All i t c ↔
      Uses sb d₁ (withInode (dinode sb d) ip) All i t c :=
  uses_rewrite hl h (fun _ hx => setDinode_high hl (hinum ▸ hlt) _ hx)
    (fun _ hi => sync_fields hl hlow hinum htype haddrs hi) i t c

theorem Owned.sync : Owned sb (iupdate sb d₁ ip') (dinode sb (iupdate sb d₁ ip')) All K :=
  h.rewrite hl (fun _ hx => setDinode_high hl (hinum ▸ hlt) _ hx)
    fun _ hi => sync_fields hl hlow hinum htype haddrs hi

end Sync

theorem Slot.val_null (h : di.addrs = fun _ => 0) (t : Slot) : t.val d di = 0 := by
  have haddr : ∀ k, di.addr k = 0 := by
    intro k
    unfold DInode.addr
    rw [h]
    exact dite_eq_right_iff.mpr fun _ => rfl
  cases t with
  | indirect => exact haddr NDIRECT
  | data bn =>
    show blockAt d di bn = 0
    unfold blockAt
    rw [haddr, haddr, if_pos rfl, ite_self]

/-- An inode without blocks is allocated or freed. -/
theorem uses_renew (hl : sb.Layout) (h : Owned sb d (dinode sb d) All K) (hi : i < sb.ninodes)
    (di : DInode) (hbefore : ∀ t c, ¬ Uses sb d (dinode sb d) All i t c)
    (hafter : di.type = 0 ∨ di.addrs = fun _ => 0) (j : Nat) (t : Slot) (c : Nat) :
    Uses sb (setDinode sb d i di) (dinode sb (setDinode sb d i di)) All j t c ↔
      Uses sb d (dinode sb d) All j t c := by
  have hhigh : ∀ x, sb.bmapstart ≤ x → setDinode sb d i di x = d x := fun x hx => setDinode_high hl hi di hx
  rcases eq_or_ne j i with rfl | hj
  · refine ⟨?_, fun hu => absurd hu (hbefore t c)⟩
    rintro ⟨-, hty, -, -, hval, h0⟩
    rw [dinode_setDinode, if_pos rfl] at hty hval
    rcases hafter with hz | hz
    · exact absurd hz hty
    · rw [val_null hz] at hval
      exact absurd hval.symm h0
  · have hd : dinode sb (setDinode sb d i di) j = dinode sb d j := by rw [dinode_setDinode, if_neg hj]
    have hval : j < sb.ninodes → (dinode sb d j).type ≠ 0 →
        t.val (setDinode sb d i di) (dinode sb d j) = t.val d (dinode sb d j) := by
      intro hlt hty
      refine val_congr (fun h0 => hhigh _ (hl.data.trans ?_)) t
      exact (h.data j .indirect _ ⟨hlt, hty, trivial, trivial, rfl, h0⟩).1
    unfold Uses
    rw [hd]
    constructor
    · rintro ⟨hlt, hty, hv, -, hc, h0⟩
      exact ⟨hlt, hty, hv, trivial, (hval hlt hty).symm.trans hc, h0⟩
    · rintro ⟨hlt, hty, hv, -, hc, h0⟩
      exact ⟨hlt, hty, hv, trivial, (hval hlt hty).trans hc, h0⟩

theorem Owned.renew (hl : sb.Layout) (h : Owned sb d (dinode sb d) All K) (hi : i < sb.ninodes)
    (di : DInode) (hbefore : ∀ t c, ¬ Uses sb d (dinode sb d) All i t c)
    (hafter : di.type = 0 ∨ di.addrs = fun _ => 0) :
    Owned sb (setDinode sb d i di) (dinode sb (setDinode sb d i di)) All K :=
  h.congr (fun _ hx => bitAt_congr (fun _ _ => setDinode_high hl hi di (Nat.le_add_left _ _)) hx)
    (uses_renew hl h hi di hbefore hafter)

/-- Slot `s` of `ip` is filled: `r` has its block number, the disk and the inode. -/
structure Took (sb : SuperBlock) (d : Disk) (ino : Nat → DInode) (K : Nat → Prop) (ip : Inode) (s : Slot)
    (r : Nat × Disk × Inode) : Prop where
  owned : Owned sb r.2.1 (withInode ino r.2.2) All K
  inum : r.2.2.inum = ip.inum
  -- only the block numbers of the inode change
  attrs : r.2.2.di.attrs = ip.di.attrs
  ne : r.1 ≠ 0
  val : s.val r.2.1 r.2.2.di = r.1
  others : ∀ bn, bn < MAXFILE → data bn ≠ s → blockAt r.2.1 r.2.2.di bn = blockAt d ip.di bn
  old : s.val d ip.di ≠ 0 → r = (s.val d ip.di, d, ip)
  new : s.val d ip.di = 0 → r.2.1 r.1 = Bytes.zero
  low : ∀ x, x < sb.bmapstart → r.2.1 x = d x
  kept : ∀ i t c, Uses sb d ino All i t c →
    (¬ (i = ip.inum ∧ t = .indirect) → r.2.1 c = d c) ∧ Uses sb r.2.1 (withInode ino r.2.2) All i t c

/-- A slot that is filled already. -/
theorem took_old (h : Owned sb d ino All K) (ho : Open sb ino ip)
    (hs : s.val d ip.di ≠ 0) : Took sb d ino K ip s (s.val d ip.di, d, ip) := by
  refine ⟨?_, rfl, rfl, hs, rfl, fun _ _ _ => rfl, fun _ => rfl, fun h0 => absurd h0 hs,
    fun _ _ => rfl, fun i t c hu => ⟨fun _ => rfl, ?_⟩⟩
  · rw [ho.withInode]
    exact h
  · rw [ho.withInode]
    exact hu

/-- The slots of the other inodes, when their indirect blocks are as before. -/
theorem val_kept (hkept : ∀ i c, i ≠ ip.inum → Uses sb d ino All i .indirect c → d' c = d c)
    (hi : i < sb.ninodes) (hty : (ino i).type ≠ 0) (hne : i ≠ ip.inum) (t : Slot) :
    t.val d' (ino i) = t.val d (ino i) :=
  val_congr (fun h0 => hkept i _ hne ⟨hi, hty, trivial, trivial, rfl, h0⟩) t

/-- **Filling a slot with a new block.**  `d₁` is the disk after `balloc` and `d'` the
disk afterwards; only the indirect block of the inode may differ. -/
theorem took_alloc (hl : sb.Layout) (h : Owned sb d ino All K) (ho : Open sb ino ip)
    (hs : s.Valid) (hold : s.val d ip.di = 0) (ha : Alloc sb d b d₁)
    (hd : ∀ x, d' x = d₁ x ∨ Uses sb d ino All ip.inum .indirect x)
    (hinum : ip'.inum = ip.inum) (hattrs : ip'.di.attrs = ip.di.attrs)
    (hval : s.val d' ip'.di = b)
    (hothers : ∀ t, t.Valid → t ≠ s → t.val d' ip'.di = t.val d ip.di) :
    Took sb d ino K ip s (b, d', ip') := by
  have htype : ip'.di.type = ip.di.type := type_of_attrs hattrs
  have hpos : b ≠ 0 := by
    have hmap := hl.bitmap b ha.lt
    have hdata := ha.data
    omega
  -- the new block was not in use
  have hnew : ∀ i t, ¬ Uses sb d ino All i t b := fun i t hu => h.ne_of_alloc ha hu rfl
  have hmeta : ∀ x, x < sb.datastart → d' x = d₁ x := fun x hx =>
    (hd x).resolve_right fun hu => absurd (h.data _ _ x hu).1 (by omega)
  have hkept : ∀ i t c, Uses sb d ino All i t c → ¬ (i = ip.inum ∧ t = .indirect) → d' c = d c := by
    intro i t c hu hne
    rw [(hd c).resolve_right fun hi => hne (h.inj _ _ _ _ c hu hi),
      ha.high c (h.data i t c hu).1 (h.ne_of_alloc ha hu)]
  have hbits : ∀ x, x < sb.size → bitAt sb d' x = (bitAt sb d x || decide (x = b)) := by
    intro x hx
    rw [← ha.bits x hx]
    exact bitAt_congr (fun y hy => hmeta _ (hl.bitmap y hy)) hx
  -- what every slot holds now
  have huses : ∀ j t c, Uses sb d' (withInode ino ip') All j t c ↔
      Uses sb d ino All j t c ∨ (j = ip.inum ∧ t = s ∧ c = b) := by
    intro j t c
    rcases eq_or_ne j ip.inum with rfl | hj
    · have hw : withInode ino ip' ip.inum = ip'.di := by rw [← hinum, withInode_self]
      unfold Uses
      rw [hw, ho.cur, htype]
      rcases eq_or_ne t s with rfl | hts
      · rw [hval, hold]
        constructor
        · rintro ⟨-, -, -, -, rfl, -⟩
          exact .inr ⟨rfl, rfl, rfl⟩
        · rintro (⟨-, -, -, -, rfl, h0⟩ | ⟨-, -, rfl⟩)
          · exact absurd rfl h0
          · exact ⟨ho.lt, ho.type, hs, trivial, rfl, hpos⟩
      · constructor
        · rintro ⟨hi, hty, hv, -, hc, h0⟩
          rw [hothers t hv hts] at hc
          exact .inl ⟨hi, hty, hv, trivial, hc, h0⟩
        · rintro (⟨hi, hty, hv, -, hc, h0⟩ | ⟨-, hts', -⟩)
          · rw [← hothers t hv hts] at hc
            exact ⟨hi, hty, hv, trivial, hc, h0⟩
          · exact absurd hts' hts
    · have hw : withInode ino ip' j = ino j := withInode_of_ne ino (by rw [hinum]; exact hj)
      have hind : ∀ i c, i ≠ ip.inum → Uses sb d ino All i .indirect c → d' c = d c :=
        fun i c hne hu => hkept i .indirect c hu fun hc => hne hc.1
      unfold Uses
      rw [hw]
      constructor
      · rintro ⟨hi, hty, hv, -, hc, h0⟩
        rw [val_kept hind hi hty hj] at hc
        exact .inl ⟨hi, hty, hv, trivial, hc, h0⟩
      · rintro (⟨hi, hty, hv, -, hc, h0⟩ | ⟨hj', -⟩)
        · rw [← val_kept hind hi hty hj] at hc
          exact ⟨hi, hty, hv, trivial, hc, h0⟩
        · exact absurd hj' hj
  refine ⟨h.take ha.data ha.lt ha.free hbits huses, hinum, hattrs, hpos, hval, ?_,
    fun hne => absurd hold hne, fun _ => ?_, fun x hx => ?_,
    fun i t c hu => ⟨hkept i t c hu, (huses i t c).mpr (.inl hu)⟩⟩
  · intro bn hbn hne
    exact hothers (.data bn) hbn hne
  · show d' b = Bytes.zero
    rw [(hd b).resolve_right (hnew _ _), ha.zero]
  · show d' x = d x
    rw [hmeta x (lt_of_lt_of_le hx hl.data), ha.low x hx]

/-! ### bmap -/

/-- The direct entries and the indirect pointer. -/
def addrSlot (k : Nat) : Slot := if k < NDIRECT then .data k else .indirect

theorem addrSlot_val (hk : k ≤ NDIRECT) (d : Disk) (di : DInode) : (addrSlot k).val d di = di.addr k := by
  unfold addrSlot
  by_cases hk' : k < NDIRECT
  · rw [if_pos hk']
    exact if_pos hk'
  · rw [show k = NDIRECT by omega]
    rfl

/-- The slots of an inode after its empty slot `addrs[k]` was filled. -/
theorem val_setAddr (hk : k ≤ NDIRECT) (hb : b < 2 ^ 32) (h0 : di.addr k = 0)
    (hzero : d b = Bytes.zero) (ht : t ≠ addrSlot k) :
    t.val d (di.setAddr k b) = t.val d di := by
  by_cases hk' : k < NDIRECT
  · rw [val_setAddr_direct d di hk' hb, if_neg]
    rw [addrSlot, if_pos hk'] at ht
    exact ht
  · obtain rfl : k = NDIRECT := by omega
    cases t with
    | indirect => exact absurd rfl ht
    | data bn =>
      -- the new indirect block has no entries yet
      show blockAt d _ bn = blockAt d di bn
      unfold blockAt
      rw [addr_setAddr di (Nat.lt_succ_self _) hb, addr_setAddr di (Nat.lt_succ_self _) hb, if_pos rfl,
        if_pos h0, hzero, word_zero, ite_self]
      refine ite_congr rfl (fun hbn => if_neg (by omega)) fun _ => rfl

theorem addrOrAlloc_spec (hl : sb.Layout) (h : Owned sb d ino All K) (ho : Open sb ino ip) (hk : k ≤ NDIRECT) :
    Safe OutOfBlocks (addrOrAlloc sb d ip k) (Took sb d ino K ip (addrSlot k)) := by
  have hval := addrSlot_val hk d ip.di
  unfold addrOrAlloc
  by_cases h0 : ip.di.addr k = 0
  · rw [if_pos h0]
    refine (balloc_spec hl h.reserved).bind ?_
    rintro ⟨b, d₁⟩ ha
    have hb : b < 2 ^ 32 := by
      have hsize := hl.size
      have hlt := ha.lt
      omega
    refine ok (took_alloc hl h ho ?_ (hval.trans h0) ha (fun x => .inl rfl) rfl rfl ?_ ?_)
    · unfold addrSlot
      split
      · exact lt_of_lt_of_le ‹k < NDIRECT› (Nat.le_add_right _ _)
      · trivial
    · show (addrSlot k).val d₁ (ip.di.setAddr k b) = b
      rw [addrSlot_val hk, addr_setAddr _ (Nat.lt_succ_of_le hk) hb, if_pos rfl]
    · intro t _ ht
      show t.val d₁ (ip.di.setAddr k b) = t.val d ip.di
      rw [val_setAddr hk hb h0 ha.zero ht]
      refine val_congr (fun hi => ?_) t
      have hu : Uses sb d ino All ip.inum .indirect (ip.di.addr NDIRECT) := ho.uses trivial trivial hi
      exact ha.high _ (h.data _ _ _ hu).1 (h.ne_of_alloc ha hu)
  · rw [if_neg h0, ← hval]
    exact ok (took_old h ho (by rw [hval]; exact h0))

variable {r : Nat × Disk × Inode}

theorem Took.isOpen (h : Took sb d ino K ip s r) (ho : Open sb ino ip) : Open sb (withInode ino r.2.2) r.2.2 := by
  refine ⟨?_, ?_, withInode_self _ _⟩
  · rw [h.inum]
    exact ho.lt
  · rw [type_of_attrs h.attrs]
    exact ho.type

theorem withInode_withInode (ino : Nat → DInode) (h : ip'.inum = ip.inum) :
    withInode (withInode ino ip) ip' = withInode ino ip' := by
  unfold withInode
  rw [h, update_idem]

/-- The indirect pointer is filled first, and then a slot behind it. -/
theorem Took.trans (hbn : bn < MAXFILE) {r' : Nat × Disk × Inode} (h : Took sb d ino K ip .indirect r)
    (h' : Took sb r.2.1 (withInode ino r.2.2) K r.2.2 (.data bn) r')
    (hind : ip.di.addr NDIRECT = 0 → blockAt d ip.di bn = 0) : Took sb d ino K ip (.data bn) r' := by
  have hinum := h'.inum.trans h.inum
  have hw : withInode (withInode ino r.2.2) r'.2.2 = withInode ino r'.2.2 :=
    withInode_withInode ino h'.inum
  have hsame : blockAt r.2.1 r.2.2.di bn = blockAt d ip.di bn := h.others bn hbn (by simp)
  refine ⟨hw ▸ h'.owned, hinum, h'.attrs.trans h.attrs, h'.ne, h'.val, ?_, ?_, ?_, ?_, ?_⟩
  · intro bn' hbn' hne
    rw [h'.others bn' hbn' hne, h.others bn' hbn' (by simp)]
  · intro hne
    -- behind a null pointer there is nothing
    have hr := h.old fun h0 => hne (hind h0)
    rw [hr] at h'
    exact h'.old hne
  · intro h0
    exact h'.new (hsame.trans h0)
  · intro x hx
    rw [h'.low x hx, h.low x hx]
  · intro i t c hu
    obtain ⟨hc, hu₁⟩ := h.kept i t c hu
    obtain ⟨hc', hu₂⟩ := h'.kept i t c hu₁
    rw [hw] at hu₂
    refine ⟨fun hne => ?_, hu₂⟩
    rw [hc' (by rw [h.inum]; exact hne), hc hne]

/-- The slots of an inode after an empty entry of its indirect block was filled. -/
theorem val_setWord {ind : Nat} (hind : di.addr NDIRECT = ind) (h0 : ind ≠ 0)
    (hj : j < NINDIRECT) (hb : b < 2 ^ 32) (t : Slot) :
    t.val (update d ind (setWord (d ind) j b)) di
      = if t = .data (NDIRECT + j) then b else t.val d di := by
  cases t with
  | indirect => rfl
  | data bn =>
    show blockAt _ di bn = if data bn = .data (NDIRECT + j) then b else blockAt d di bn
    unfold blockAt
    rw [hind, if_neg h0, if_neg h0, update_self, word_setWord _ hj hb]
    by_cases hbn : bn < NDIRECT
    · rw [if_pos hbn, if_pos hbn, if_neg (fun he => by have := data.inj he; omega)]
    rw [if_neg hbn, if_neg hbn]
    refine if_congr ⟨fun he => ?_, fun he => ?_⟩ rfl rfl
    · exact congrArg data (by omega)
    · have := data.inj he
      omega

/-- The second half of `bmap` for a block behind the indirect pointer. -/
theorem entry_spec (hl : sb.Layout) (h : Owned sb d ino All K) (ho : Open sb ino ip)
    (hj : j < NINDIRECT) (h0 : ip.di.addr NDIRECT ≠ 0) :
    Safe OutOfBlocks
      (if word (d (ip.di.addr NDIRECT)) j = 0 then do
        let (b, d) ← balloc sb d
        return (b, update d (ip.di.addr NDIRECT) (setWord (d (ip.di.addr NDIRECT)) j b), ip)
      else return (word (d (ip.di.addr NDIRECT)) j, d, ip))
      (Took sb d ino K ip (.data (NDIRECT + j))) := by
  have hval : (data (NDIRECT + j)).val d ip.di = word (d (ip.di.addr NDIRECT)) j := by
    show blockAt d ip.di (NDIRECT + j) = _
    unfold blockAt
    rw [if_neg (by omega), if_neg h0, Nat.add_sub_cancel_left]
  have hu : Uses sb d ino All ip.inum .indirect (ip.di.addr NDIRECT) := ho.uses trivial trivial h0
  by_cases hw : word (d (ip.di.addr NDIRECT)) j = 0
  · rw [if_pos hw]
    refine (balloc_spec hl h.reserved).bind ?_
    rintro ⟨b, d₁⟩ ha
    have hb : b < 2 ^ 32 := by
      have hsize := hl.size
      have hlt := ha.lt
      omega
    refine ok (took_alloc hl h ho ?_ (hval.trans hw) ha (fun x => ?_) rfl rfl ?_ ?_)
    · exact Nat.add_lt_add_left hj NDIRECT
    · by_cases hx : x = ip.di.addr NDIRECT
      · rw [hx]
        exact .inr hu
      · exact .inl (update_of_ne hx _ _)
    · rw [val_setWord rfl h0 hj hb, if_pos rfl]
    · intro t _ ht
      rw [val_setWord rfl h0 hj hb, if_neg ht]
      exact val_congr (fun _ => ha.high _ (h.data _ _ _ hu).1 (h.ne_of_alloc ha hu)) t
  · rw [if_neg hw, ← hval]
    exact ok (took_old h ho (by rw [hval]; exact hw))

/-- **`bmap`** fills the slot of the block asked for. -/
theorem bmap_spec (hl : sb.Layout) (h : Owned sb d ino All K) (ho : Open sb ino ip)
    (hbn : bn < MAXFILE) : Safe OutOfBlocks (bmap sb d ip bn) (Took sb d ino K ip (.data bn)) := by
  unfold bmap
  by_cases hd : bn < NDIRECT
  · have hspec := addrOrAlloc_spec hl h ho (le_of_lt hd)
    rw [addrSlot, if_pos hd] at hspec
    rw [if_pos hd]
    exact hspec
  · obtain ⟨j, rfl⟩ : ∃ j, bn = NDIRECT + j := ⟨bn - NDIRECT, by omega⟩
    have hj : j < NINDIRECT := Nat.lt_of_add_lt_add_left hbn
    rw [if_neg hd, Nat.add_sub_cancel_left, if_pos hj]
    have hspec := addrOrAlloc_spec hl h ho (le_refl NDIRECT)
    refine hspec.bind ?_
    rintro ⟨ind, d₁, ip₁⟩ ht
    -- the pointer is what `addrOrAlloc` returned
    have hptr : ip₁.di.addr NDIRECT = ind := ht.val
    have hne : ind ≠ 0 := ht.ne
    have hentry := entry_spec hl ht.owned (ht.isOpen ho) hj (hptr.trans_ne hne)
    simp only [hptr] at hentry
    refine hentry.mono fun r hr => ht.trans hbn hr fun h0 => ?_
    unfold blockAt
    rw [if_neg hd, if_pos h0]

/-! ### itrunc -/

/-- `ip'` is `ip` with other values in its slots, and the disk has changed in the free
map only. -/
structure Emptying (sb : SuperBlock) (d : Disk) (ip : Inode) (d' : Disk) (ip' : Inode) : Prop where
  inum : ip'.inum = ip.inum
  attrs : ip'.di.attrs = ip.di.attrs
  low : ∀ x, x < sb.bmapstart → d' x = d x
  high : ∀ x, sb.datastart ≤ x → d' x = d x

theorem Emptying.refl (sb : SuperBlock) (d : Disk) (ip : Inode) : Emptying sb d ip d ip :=
  ⟨rfl, rfl, fun _ _ => rfl, fun _ _ => rfl⟩

theorem Emptying.trans {ip'' : Inode} (h : Emptying sb d ip d₁ ip') (h' : Emptying sb d₁ ip' d' ip'') :
    Emptying sb d ip d' ip'' :=
  ⟨h'.inum.trans h.inum, h'.attrs.trans h.attrs, fun x hx => (h'.low x hx).trans (h.low x hx),
    fun x hx => (h'.high x hx).trans (h.high x hx)⟩

theorem Emptying.isOpen (h : Emptying sb d ip d' ip') (ho : Open sb ino ip) : Open sb (withInode ino ip') ip' := by
  refine ⟨?_, ?_, withInode_self _ _⟩
  · rw [h.inum]
    exact ho.lt
  · rw [type_of_attrs h.attrs]
    exact ho.type

section Drop

variable {L L' : Nat → Slot → Prop}

/-- Who uses what after slots of `ip` have changed and other inodes have not. -/
theorem uses_emptying (h : Owned sb d ino L K) (ho : Open sb ino ip) (he : Emptying sb d ip d' ip')
    (hL : ∀ j t, j ≠ ip.inum → L j t ∧ L' j t) {P : Slot → Nat → Prop}
    (hslots : ∀ t c, t.Valid → c ≠ 0 →
      (L' ip.inum t ∧ t.val d' ip'.di = c ↔ (L ip.inum t ∧ t.val d ip.di = c) ∧ P t c))
    (hP : ∀ j t c, j ≠ ip.inum → Uses sb d ino L j t c → P t c) (j : Nat) (t : Slot) (c : Nat) :
    Uses sb d' (withInode ino ip') L' j t c ↔ Uses sb d ino L j t c ∧ P t c := by
  rcases eq_or_ne j ip.inum with rfl | hj
  · have hw : withInode ino ip' ip.inum = ip'.di := by rw [← he.inum, withInode_self]
    unfold Uses
    rw [hw, ho.cur, type_of_attrs he.attrs]
    constructor
    · rintro ⟨hi, hty, hv, hl', hc, h0⟩
      obtain ⟨⟨hl, hc⟩, hp⟩ := (hslots t c hv h0).mp ⟨hl', hc⟩
      exact ⟨⟨hi, hty, hv, hl, hc, h0⟩, hp⟩
    · rintro ⟨⟨hi, hty, hv, hl, hc, h0⟩, hp⟩
      obtain ⟨hl', hc⟩ := (hslots t c hv h0).mpr ⟨⟨hl, hc⟩, hp⟩
      exact ⟨hi, hty, hv, hl', hc, h0⟩
  · have hw : withInode ino ip' j = ino j := withInode_of_ne ino (by rw [he.inum]; exact hj)
    -- the other inodes' indirect blocks are data blocks, which have not changed
    have hval : j < sb.ninodes → (ino j).type ≠ 0 → t.val d' (ino j) = t.val d (ino j) := fun hi hty =>
      val_congr
        (fun h0 => he.high _ (h.data j .indirect _ ⟨hi, hty, trivial, (hL j _ hj).1, rfl, h0⟩).1) t
    unfold Uses
    rw [hw]
    constructor
    · rintro ⟨hi, hty, hv, -, hc, h0⟩
      rw [hval hi hty] at hc
      have hu : Uses sb d ino L j t c := ⟨hi, hty, hv, (hL j t hj).1, hc, h0⟩
      exact ⟨hu, hP j t c hj hu⟩
    · rintro ⟨⟨hi, hty, hv, -, hc, h0⟩, -⟩
      rw [← hval hi hty] at hc
      exact ⟨hi, hty, hv, (hL j t hj).2, hc, h0⟩

/-- **Freeing the block of one slot.** -/
theorem drop_slot (h : Owned sb d ino L K) (ho : Open sb ino ip)
    (hu : Uses sb d ino L ip.inum s b) (hf : Freed sb d b d') (hinum : ip'.inum = ip.inum)
    (hattrs : ip'.di.attrs = ip.di.attrs) (hL : ∀ j t, j ≠ ip.inum → L j t ∧ L' j t)
    (hslots : ∀ t c, t.Valid → c ≠ 0 →
      (L' ip.inum t ∧ t.val d' ip'.di = c ↔ (L ip.inum t ∧ t.val d ip.di = c) ∧ t ≠ s)) :
    Owned sb d' (withInode ino ip') L' K := by
  have he : Emptying sb d ip d' ip' := ⟨hinum, hattrs, hf.low, hf.high⟩
  refine h.give hu (fun x _ => hf.bits x) (uses_emptying h ho he hL ?_ ?_)
  · intro t c hv h0
    rw [hslots t c hv h0]
    refine and_congr_right fun ⟨hl, hc⟩ => not_congr ⟨?_, ?_⟩
    · rintro rfl
      rw [← hc, ← ho.cur]
      exact hu.2.2.2.2.1
    · rintro rfl
      subst hc
      exact (h.inj _ _ _ _ _ (ho.uses hv hl h0) hu).2
  · rintro j t c hj hu' rfl
    exact hj (h.inj _ _ _ _ c hu' hu).1

end Drop

/-- The state during the first loop of `itrunc`: the first `k` direct entries are null. -/
structure DirectInv (sb : SuperBlock) (d : Disk) (ino : Nat → DInode) (K : Nat → Prop) (ip : Inode)
    (k : Nat) (s : Disk × Inode) : Prop extends Emptying sb d ip s.1 s.2 where
  owned : Owned sb s.1 (withInode ino s.2) All K
  null : ∀ j, j < k → s.2.di.addr j = 0

theorem truncDirect_spec (hl : sb.Layout) (ho : Open sb ino ip) (hk : k < NDIRECT)
    {s : Disk × Inode} (h : DirectInv sb d ino K ip k s) :
    Safe (fun _ => False) (truncDirect sb s k) (DirectInv sb d ino K ip (k + 1)) := by
  unfold truncDirect
  have ho' := h.toEmptying.isOpen ho
  by_cases h0 : s.2.di.addr k = 0
  · rw [if_pos h0]
    refine ok ⟨h.toEmptying, h.owned, fun j hj => ?_⟩
    rcases Nat.lt_succ_iff_lt_or_eq.mp hj with hj | rfl
    · exact h.null j hj
    · exact h0
  · rw [if_neg h0]
    have hval : (data k).val s.1 s.2.di = s.2.di.addr k := if_pos hk
    have hv : (data k).Valid := lt_of_lt_of_le hk (Nat.le_add_right _ _)
    have hu : Uses sb s.1 (withInode ino s.2) All s.2.inum (.data k) (s.2.di.addr k) :=
      hval ▸ ho'.uses hv trivial (hval.trans_ne h0)
    obtain ⟨d', hfree, hf⟩ := bfree_spec hl (h.owned.data _ _ _ hu).2 (h.owned.bit hu)
    rw [hfree]
    have hzero : (0 : Nat) < 2 ^ 32 := by decide
    have he : Emptying sb s.1 s.2 d' (s.2.setAddr k 0) := ⟨rfl, rfl, hf.low, hf.high⟩
    refine ok ⟨h.toEmptying.trans he, ?_, fun j hj => ?_⟩
    · rw [← withInode_withInode ino (show (s.2.setAddr k 0).inum = s.2.inum from rfl)]
      refine drop_slot h.owned ho' hu hf rfl rfl (fun _ _ _ => ⟨trivial, trivial⟩) fun t c hv hc0 => ?_
      -- only slot `k` has changed
      have hsame : t.val d' s.2.di = t.val s.1 s.2.di := by
        refine val_congr (fun hi => hf.high _ (h.owned.data s.2.inum .indirect _ ?_).1) t
        exact ho'.uses trivial trivial hi
      show All _ _ ∧ t.val d' (s.2.di.setAddr k 0) = c ↔ _
      rw [val_setAddr_direct d' s.2.di hk hzero, hsame]
      by_cases ht : t = .data k
      · rw [if_pos ht]
        exact ⟨fun hc => absurd hc.2.symm hc0, fun hc => absurd ht hc.2⟩
      · rw [if_neg ht]
        exact ⟨fun hc => ⟨hc, ht⟩, fun hc => hc.1⟩
    · show (s.2.di.setAddr k 0).addr j = 0
      rw [addr_setAddr _ (Nat.lt_succ_of_lt hk) hzero]
      split
      · rfl
      · exact h.null j (by omega)

/-- During the second loop of `itrunc` the entries of the indirect block below `k` do not
count. -/
def Pending (i k : Nat) (j : Nat) (t : Slot) : Prop := j = i → ∀ m, m < k → t ≠ .data (NDIRECT + m)

theorem pending_zero (i : Nat) : Pending i 0 = All := by
  funext j t
  exact propext ⟨fun _ => trivial, fun _ _ m hm => absurd hm (Nat.not_lt_zero m)⟩

theorem pending_succ (i k : Nat) (t : Slot) : Pending i (k + 1) i t ↔ Pending i k i t ∧ t ≠ .data (NDIRECT + k) := by
  constructor
  · intro h
    exact ⟨fun hi m hm => h hi m (by omega), h rfl k (Nat.lt_succ_self k)⟩
  rintro ⟨h, hk⟩ hi m hm
  rcases Nat.lt_succ_iff_lt_or_eq.mp hm with hm | rfl
  · exact h hi m hm
  · exact hk

theorem pending_of_ne (hj : j ≠ i) (k : Nat) (t : Slot) : Pending i k j t :=
  fun hi => absurd hi hj

theorem pending_indirect (i k : Nat) : Pending i k i .indirect := by
  intro _ m _ h
  cases h

/-- The state during the second loop of `itrunc`. -/
structure EntryInv (sb : SuperBlock) (d : Disk) (ino : Nat → DInode) (K : Nat → Prop) (ip : Inode)
    (k : Nat) (d' : Disk) : Prop extends Emptying sb d ip d' ip where
  owned : Owned sb d' ino (Pending ip.inum k) K

theorem truncEntry_spec (hl : sb.Layout) (ho : Open sb ino ip) (hind : ip.di.addr NDIRECT ≠ 0)
    (hk : k < NINDIRECT) (h : EntryInv sb d ino K ip k d') :
    Safe (fun _ => False) (truncEntry sb (d (ip.di.addr NDIRECT)) d' k) (EntryInv sb d ino K ip (k + 1)) := by
  have hL : ∀ j t, j ≠ ip.inum → Pending ip.inum k j t ∧ Pending ip.inum (k + 1) j t := fun j t hj =>
    ⟨pending_of_ne hj k t, pending_of_ne hj (k + 1) t⟩
  have hui : Uses sb d' ino (Pending ip.inum k) ip.inum .indirect (ip.di.addr NDIRECT) :=
    ho.uses trivial (pending_indirect _ _) hind
  -- the loop reads the indirect block as it was before the loop
  have hblk : d' (ip.di.addr NDIRECT) = d (ip.di.addr NDIRECT) := h.high _ (h.owned.data _ _ _ hui).1
  have hval : (data (NDIRECT + k)).val d' ip.di = word (d (ip.di.addr NDIRECT)) k := by
    show blockAt d' ip.di (NDIRECT + k) = _
    unfold blockAt
    rw [if_neg (by omega), if_neg hind, Nat.add_sub_cancel_left, hblk]
  unfold truncEntry
  by_cases h0 : word (d (ip.di.addr NDIRECT)) k = 0
  · rw [if_pos h0]
    refine ok ⟨h.toEmptying, h.owned.congr (fun _ _ => rfl) fun j t c => ?_⟩
    have hu := uses_emptying h.owned ho (Emptying.refl sb d' ip) hL
      (fun t c hv hc0 => ?_) (fun _ _ _ _ _ => trivial) j t c
    · rw [ho.withInode, and_true] at hu
      exact hu
    · -- an empty entry
      rw [pending_succ, and_true]
      refine ⟨fun hc => ⟨hc.1.1, hc.2⟩, fun hc => ⟨⟨hc.1, ?_⟩, hc.2⟩⟩
      rintro rfl
      exact hc0 (hc.2.symm.trans (hval.trans h0))
  · rw [if_neg h0]
    have hv : (data (NDIRECT + k)).Valid := Nat.add_lt_add_left hk NDIRECT
    have hp : Pending ip.inum k ip.inum (.data (NDIRECT + k)) := by
      intro _ m hm he
      have := data.inj he
      omega
    have hu := hval ▸ ho.uses hv hp (hval.trans_ne h0)
    obtain ⟨d'', hfree, hf⟩ := bfree_spec hl (h.owned.data _ _ _ hu).2 (h.owned.bit hu)
    rw [hfree]
    refine ok ⟨h.toEmptying.trans ⟨rfl, rfl, hf.low, hf.high⟩, ?_⟩
    have hown := drop_slot h.owned ho hu hf rfl rfl hL fun t c hv hc0 => ?_
    · rw [ho.withInode] at hown
      exact hown
    have hsame : t.val d'' ip.di = t.val d' ip.di :=
      val_congr (fun _ => hf.high _ (h.owned.data _ _ _ hui).1) t
    rw [pending_succ, hsame]
    exact ⟨fun hc => ⟨⟨hc.1.1, hc.2⟩, hc.1.2⟩, fun hc => ⟨⟨hc.1.1, hc.2⟩, hc.1.2⟩⟩

/-- The second part of `itrunc` empties the slots behind the indirect pointer. -/
theorem truncIndirect_spec (hl : sb.Layout) (h : Owned sb d ino All K) (ho : Open sb ino ip) :
    Safe (fun _ => False) (truncIndirect sb d ip) fun s =>
      Emptying sb d ip s.1 s.2 ∧ Owned sb s.1 (withInode ino s.2) All K ∧
        s.2.di.addr NDIRECT = 0 ∧ ∀ k, k < NDIRECT → s.2.di.addr k = ip.di.addr k := by
  unfold truncIndirect
  by_cases h0 : ip.di.addr NDIRECT = 0
  · rw [if_pos h0]
    refine ok ⟨Emptying.refl sb d ip, ?_, h0, fun _ _ => rfl⟩
    rw [ho.withInode]
    exact h
  · rw [if_neg h0]
    have hinit : EntryInv sb d ino K ip 0 d := ⟨Emptying.refl sb d ip, by rw [pending_zero]; exact h⟩
    refine (foldlM_range (fun k s hk hs => truncEntry_spec hl ho h0 hk hs) hinit).bind ?_
    intro d₁ h₁
    have hu : Uses sb d₁ ino (Pending ip.inum NINDIRECT) ip.inum .indirect (ip.di.addr NDIRECT) :=
      ho.uses trivial (pending_indirect _ _) h0
    obtain ⟨d₂, hfree, hf⟩ := bfree_spec hl (h₁.owned.data _ _ _ hu).2 (h₁.owned.bit hu)
    rw [hfree]
    have hzero : (0 : Nat) < 2 ^ 32 := by decide
    have hlast : NDIRECT < NDIRECT + 1 := Nat.lt_succ_self _
    refine ok ⟨h₁.toEmptying.trans ⟨rfl, rfl, hf.low, hf.high⟩, ?_, ?_, ?_⟩
    · refine drop_slot h₁.owned ho hu hf rfl rfl
        (fun j t hj => ⟨pending_of_ne hj _ t, trivial⟩) fun t c hv hc0 => ?_
      cases t with
      | indirect =>
        have hnull : (ip.di.setAddr NDIRECT 0).addr NDIRECT = 0 := by
          rw [addr_setAddr _ hlast hzero, if_pos rfl]
        exact ⟨fun hc => absurd (hc.2.symm.trans hnull) hc0, fun hc => absurd rfl hc.2⟩
      | data bn =>
        have hb : blockAt d₂ (ip.di.setAddr NDIRECT 0) bn = if bn < NDIRECT then ip.di.addr bn else 0 := by
          unfold blockAt
          rw [addr_setAddr _ hlast hzero]
          exact ite_congr rfl (fun hbn => if_neg (by omega)) fun _ => rfl
        show All _ _ ∧ blockAt d₂ (ip.di.setAddr NDIRECT 0) bn = c ↔
          (Pending ip.inum NINDIRECT ip.inum (.data bn) ∧ blockAt d₁ ip.di bn = c) ∧ _
        rw [hb]
        by_cases hbn : bn < NDIRECT
        · rw [if_pos hbn, show blockAt d₁ ip.di bn = ip.di.addr bn from if_pos hbn]
          refine ⟨fun hc => ⟨⟨fun _ m _ he => ?_, hc.2⟩, by simp⟩, fun hc => ⟨trivial, hc.1.2⟩⟩
          have := data.inj he
          omega
        · -- all entries of the indirect block have been passed
          rw [if_neg hbn]
          have hlt : bn - NDIRECT < NINDIRECT := Nat.sub_lt_left_of_lt_add (by omega) hv
          refine ⟨fun hc => absurd hc.2.symm hc0, fun hc => ?_⟩
          exact absurd (congrArg data (by omega)) (hc.1.1 rfl (bn - NDIRECT) hlt)
    · show (ip.di.setAddr NDIRECT 0).addr NDIRECT = 0
      rw [addr_setAddr _ hlast hzero, if_pos rfl]
    · intro k hk
      show (ip.di.setAddr NDIRECT 0).addr k = ip.di.addr k
      rw [addr_setAddr _ hlast hzero, if_neg (by omega)]

/-- An inode with no content. -/
def emptied (di : DInode) : DInode := { di with size := 0, addrs := fun _ => 0 }

/-- What `itrunc` does: the inode is empty, in memory and on disk. -/
structure Truncated (sb : SuperBlock) (d : Disk) (ino : Nat → DInode) (K : Nat → Prop) (ip : Inode)
    (s : Disk × Inode) : Prop where
  inode : s.2 = { ip with di := emptied ip.di }
  owned : Owned sb s.1 (withInode ino s.2) All K
  disk : ∀ i, i < sb.ninodes → dinode sb s.1 i = if i = ip.inum then emptied ip.di else dinode sb d i
  high : ∀ x, sb.datastart ≤ x → s.1 x = d x

theorem addrs_eq_zero (h : ∀ k, k ≤ NDIRECT → di.addr k = 0) : di.addrs = fun _ => 0 := by
  funext k
  have hk := h k (Nat.le_of_lt_succ k.isLt)
  unfold DInode.addr at hk
  rw [dif_pos k.isLt] at hk
  exact UInt32.toNat_inj.mp hk

theorem setSize_eq_emptied (hattrs : di'.attrs = di.attrs)
    (haddr : ∀ k, k ≤ NDIRECT → di'.addr k = 0) : di'.setSize 0 = emptied di := by
  have ha := addrs_eq_zero haddr
  rcases di with ⟨t, ma, mi, nl, sz, as⟩
  rcases di' with ⟨t', ma', mi', nl', sz', as'⟩
  cases hattrs
  cases ha
  rfl

/-- **`itrunc`** returns all blocks of the inode, and never finds one of them free. -/
theorem itrunc_spec (hl : sb.Layout) (h : Owned sb d ino All K) (ho : Open sb ino ip) :
    Safe (fun _ => False) (itrunc sb d ip) (Truncated sb d ino K ip) := by
  have hinit : DirectInv sb d ino K ip 0 (d, ip) :=
    ⟨Emptying.refl sb d ip, by rw [ho.withInode]; exact h, fun j hj => absurd hj (Nat.not_lt_zero j)⟩
  refine (foldlM_range (fun k s hk hs => truncDirect_spec hl ho hk hs) hinit).bind ?_
  rintro ⟨d₁, ip₁⟩ h₁
  refine (truncIndirect_spec hl h₁.owned (h₁.toEmptying.isOpen ho)).bind ?_
  rintro ⟨d₂, ⟨inum₂, di₂⟩⟩ ⟨he, hown, hind, hdir⟩
  have he' := h₁.toEmptying.trans he
  have hnull : ∀ k, k ≤ NDIRECT → di₂.addr k = 0 := by
    intro k hk
    rcases Nat.lt_or_eq_of_le hk with hk | rfl
    · exact (hdir k hk).trans (h₁.null k hk)
    · exact hind
  obtain rfl : inum₂ = ip.inum := he'.inum
  have hdi : di₂.setSize 0 = emptied ip.di := setSize_eq_emptied he'.attrs hnull
  refine ok ⟨?_, ?_, fun i hi => ?_, fun x hx => ?_⟩
  · rw [hdi]
  · have hown' : Owned sb d₂ (withInode ino ⟨ip.inum, di₂⟩) All K :=
      withInode_withInode ino he.inum ▸ hown
    refine hown'.rewrite hl (fun x hx => setDinode_high hl ho.lt _ hx) fun i _ => ?_
    rw [withInode_apply, withInode_apply]
    by_cases hi : i = ip.inum
    · rw [if_pos hi, if_pos hi]
      exact ⟨rfl, rfl⟩
    · rw [if_neg hi, if_neg hi]
      exact ⟨rfl, rfl⟩
  · show dinode sb (setDinode sb d₂ ip.inum (di₂.setSize 0)) i = _
    rw [dinode_setDinode, hdi, dinode_congr hl he'.low hi]
  · show setDinode sb d₂ ip.inum (di₂.setSize 0) x = d x
    rw [setDinode_high hl ho.lt _ (hl.data.trans hx)]
    exact he'.high x hx

end Xv6.Fs
