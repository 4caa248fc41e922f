/-
Xv6/MkfsInv.lean

The image that mkfs writes.

`iappend` does to the image what the kernel's `writei` does to `view`, the image with its
free map filled in: both map the same blocks in the same order, since the first block that
is free in that map is `freeblock` (`sector_spec`, `appendLoop_spec`).  So what is known of
`writei` carries over: ownership of blocks, and that the content of a file is what was written.

What mkfs knows beyond this is how many blocks it has used.  An inode has exactly the
blocks below its size (`Upto`), and `freeblock` is the sum of these (`Inv.blocks`).  That
settles when the program succeeds: if and only if the total fits.
-/
import Xv6.Mkfs

namespace Xv6.Mkfs

open Function List

open Fs (Owned Open Stored Took Uses Slot All OutOfBlocks blockAt withInode bmap)

/-! ### Counting blocks -/

/-- Blocks below a size. -/
def nblk (size : Nat) : Nat := (size + BSIZE - 1) / BSIZE

/-- Blocks that go into a file of `k` blocks, the indirect block included. -/
def taken (k : Nat) : Nat := k + if NDIRECT < k then 1 else 0

theorem taken_mono {k k' : Nat} (h : k ≤ k') : taken k ≤ taken k' := by
  unfold taken
  split <;> split <;> omega

/-- The file has its first `k` blocks and no others. -/
structure Upto (d : Disk) (di : DInode) (k : Nat) : Prop where
  data : ∀ bn, bn < MAXFILE → (blockAt d di bn ≠ 0 ↔ bn < k)
  indirect : di.addr NDIRECT ≠ 0 ↔ NDIRECT < k

section Sector

variable {s s' : St} {din din' : DInode} {i k x : Nat} {ino : Nat → DInode} {K : Nat → Prop} {j b fbn : Nat}

/-- Blocks in use are data blocks that the counter has passed. -/
theorem uses_range (hg : Good s) (h : Owned sb (view s) ino All K) {t : Slot}
    (hu : Uses sb (view s) ino All j t b) : nmeta ≤ b ∧ b < s.freeblock := by
  obtain ⟨hlow, hhigh⟩ := h.data j t b hu
  have hbit := h.bit hu
  have hbpb : b < BPB := lt_of_lt_of_le hhigh (by decide)
  rw [bitAt_view hg.high hbpb] at hbit
  exact ⟨datastart_eq ▸ hlow, of_decide_eq_true hbit⟩

/-- No data block is the free map. -/
theorem ne_bmap (h : nmeta ≤ b) : b ≠ sb.bmapstart := by
  have hlt : sb.bmapstart < nmeta := by decide
  omega

/-- The indirect block, if there is one. -/
theorem indirect_range (hg : Good s) (h : Owned sb (view s) ino All K) (ho : Open sb ino ⟨i, din⟩)
    (h0 : din.addr NDIRECT ≠ 0) : nmeta ≤ din.addr NDIRECT ∧ din.addr NDIRECT < s.freeblock :=
  uses_range hg h (ho.uses (t := .indirect) trivial trivial h0)

theorem rsect_view (hg : Good s) (hlow : nmeta ≤ b) (hhigh : b < s.freeblock) : rsect s b = .ok (view s b) := by
  rw [rsect_ok (by rw [hg.nsect]; exact lt_of_lt_of_le hhigh hg.high), view_of_ne s (ne_bmap hlow)]

/-- A block that the file has. -/
theorem sector_old (hg : Good s) (h : Owned sb (view s) ino All K) (ho : Open sb ino ⟨i, din⟩)
    (hup : Upto (view s) din k) (hlt : fbn < k) (hmax : fbn < MAXFILE) :
    sector s din fbn = .ok (blockAt (view s) din fbn, din, s) := by
  have h0 := (hup.data fbn hmax).mpr hlt
  unfold blockAt at h0 ⊢
  unfold sector
  by_cases hd : fbn < NDIRECT
  · rw [if_pos hd] at h0 ⊢
    rw [if_pos hd, addrOrNew, if_neg h0]
  have hi : din.addr NDIRECT ≠ 0 := hup.indirect.mpr (by omega)
  obtain ⟨hlow, hhigh⟩ := indirect_range hg h ho hi
  rw [if_neg hd, if_neg hi] at h0
  rw [if_neg hd, if_neg hd, if_neg hi, addrOrNew, if_neg hi]
  simp only [rsect_view hg hlow hhigh]
  show (if _ then _ else _) = _
  rw [if_neg h0]
  rfl

/-- What the first half of the loop has done: it took the block that the kernel takes. -/
structure Placed (s : St) (din : DInode) (i fbn k : Nat) (x : Nat) (din' : DInode) (s' : St) : Prop where
  kernel : bmap sb (view s) ⟨i, din⟩ fbn = .ok (x, view s', ⟨i, din'⟩)
  good : Good s'
  lt : x < s'.freeblock
  indirect : din'.addr NDIRECT ≠ 0 ↔ NDIRECT < k
  freeinode : s'.freeinode = s.freeinode
  inodeBlocks : s'.inodeBlocks = s.inodeBlocks

section

variable (hg : Good s)

include hg

/-- The next entry of the indirect block. -/
theorem entry_new {ind : Nat} (hlow : nmeta ≤ ind) (hhigh : ind < s.freeblock) (hlt : s.freeblock < FSSIZE) :
    Fs.balloc sb (view s) = .ok (s.freeblock, view s.bump) ∧
      update (view s.bump) ind (setWord (view s.bump ind) j s.freeblock)
        = view (wsect s.bump ind (setWord (view s ind) j s.freeblock)) ∧
      Good (wsect s.bump ind (setWord (view s ind) j s.freeblock)) := by
  have hne := ne_bmap hlow
  refine ⟨balloc_view hg hlt, ?_, (hg.bump hlt).wsect ?_ (Nat.lt_succ_of_lt hhigh) _⟩
  · rw [view_wsect _ hne, view_of_ne s hne, view_of_ne s.bump hne]
    rfl
  · exact le_trans (by decide) hlow

/-- The next direct block. -/
theorem sector_direct (hup : Upto (view s) din k) (hd : k < NDIRECT) :
    sector s din k = .ok (s.freeblock, din.setAddr k s.freeblock, s.bump) ∧
      (s.freeblock < FSSIZE → Placed s din i k (k + 1) s.freeblock (din.setAddr k s.freeblock) s.bump) := by
  have hmax : k < MAXFILE := lt_of_lt_of_le hd (by decide)
  have h0 : din.addr k = 0 := by
    have hnot := mt (hup.data k hmax).mp (lt_irrefl k)
    unfold blockAt at hnot
    rw [if_pos hd] at hnot
    exact not_not.mp hnot
  refine ⟨by rw [sector, if_pos hd, addrOrNew, if_pos h0], fun hlt => ⟨?_, hg.bump hlt, Nat.lt_succ_self _, ?_, rfl, rfl⟩⟩
  · rw [bmap, if_pos hd, Fs.addrOrAlloc, if_pos h0, balloc_view hg hlt]
    rfl
  · have hfb : s.freeblock < 2 ^ 32 := lt_trans hlt (by decide)
    rw [Fs.addr_setAddr din (Nat.lt_succ_of_lt hd) hfb, if_neg (by omega)]
    exact hup.indirect.trans (by omega)

/-- The first block behind the direct ones, and the indirect block. -/
theorem sector_first (hup : Upto (view s) din NDIRECT) :
    (s.freeblock + 2 ≤ FSSIZE → ∃ x din' s', sector s din NDIRECT = .ok (x, din', s') ∧
      s'.freeblock = s.freeblock + 2 ∧ Placed s din i NDIRECT (NDIRECT + 1) x din' s') ∧
    (¬ s.freeblock + 2 ≤ FSSIZE → ∃ m, (sector s din NDIRECT >>= fun r => rsect r.2.2 r.1) = .error m) := by
  have h0 : din.addr NDIRECT = 0 := not_not.mp (mt hup.indirect.mp (lt_irrefl _))
  have hsec : sector s din NDIRECT = (do
      let indirect ← rsect s.bump s.freeblock
      if word indirect 0 = 0 then
        return (s.freeblock + 1, din.setAddr NDIRECT s.freeblock,
          wsect s.bump.bump s.freeblock (setWord indirect 0 (s.freeblock + 1)))
      else return (word indirect 0, din.setAddr NDIRECT s.freeblock, s.bump)) := by
    rw [sector, addrOrNew, if_pos h0]
    rfl
  rw [hsec]
  by_cases hlt : s.freeblock < FSSIZE
  · have hzero : s.img s.freeblock = Bytes.zero := hg.fresh _ le_rfl hlt
    have hread : rsect s.bump s.freeblock = .ok Bytes.zero := by
      rw [← hzero]
      exact rsect_ok (by rw [show s.bump.nsect = s.nsect from rfl, hg.nsect]; exact hlt)
    have hview : view s.bump s.freeblock = Bytes.zero := (view_of_ne _ (ne_bmap hg.low)).trans hzero
    rw [hread]
    refine ⟨fun hfit => ⟨_, _, _, rfl, rfl, ?_⟩, fun hfit => ?_⟩
    · obtain ⟨hnew, hupd, hgood⟩ := entry_new (hg.bump hlt) hg.low (Nat.lt_succ_self _) hfit
      rw [hview] at hupd hgood
      refine ⟨?_, hgood, Nat.lt_succ_self _, ?_, rfl, rfl⟩
      · have hj : NDIRECT - NDIRECT < NINDIRECT := by decide
        rw [bmap, Fs.addrOrAlloc, if_pos h0, balloc_view hg hlt]
        simp only [bind, Except.bind, pure, Except.pure, Nat.sub_self, hview, word_zero, if_true, hnew]
        exact congrArg (fun d => Except.ok (_, d, _)) hupd
      · have hfb : s.freeblock < 2 ^ 32 := lt_trans hlt (by decide)
        have hpos : s.freeblock ≠ 0 := by
          have hlow := hg.low
          have : 0 < nmeta := by decide
          omega
        rw [Fs.addr_setAddr din (Nat.lt_succ_self _) hfb]
        exact iff_of_true hpos (Nat.lt_succ_self _)
    · refine ⟨"read", rsect_error ?_⟩
      show max s.nsect (s.freeblock + 1) ≤ s.freeblock + 1
      rw [hg.nsect]
      omega
  · refine ⟨fun hfit => absurd hfit (by omega), fun _ => ⟨"read", ?_⟩⟩
    rw [rsect_error (by rw [show s.bump.nsect = s.nsect from rfl, hg.nsect]; omega)]
    rfl

/-- The next block behind the indirect block. -/
theorem sector_indirect (h : Owned sb (view s) ino All K) (ho : Open sb ino ⟨i, din⟩)
    (hup : Upto (view s) din k) (hk : NDIRECT < k) (hmax : k < MAXFILE) :
    (s.freeblock + 1 ≤ FSSIZE → ∃ x din' s', sector s din k = .ok (x, din', s') ∧
      s'.freeblock = s.freeblock + 1 ∧ Placed s din i k (k + 1) x din' s') ∧
    (¬ s.freeblock + 1 ≤ FSSIZE → ∃ m, (sector s din k >>= fun r => rsect r.2.2 r.1) = .error m) := by
  have hi : din.addr NDIRECT ≠ 0 := hup.indirect.mpr hk
  have hd : ¬ k < NDIRECT := by omega
  obtain ⟨hlow, hhigh⟩ := indirect_range hg h ho hi
  have hw : word (view s (din.addr NDIRECT)) (k - NDIRECT) = 0 := by
    have hnot := mt (hup.data k hmax).mp (lt_irrefl k)
    unfold blockAt at hnot
    rw [if_neg hd, if_neg hi] at hnot
    exact not_not.mp hnot
  have hsec : sector s din k = .ok (s.freeblock, din,
      wsect s.bump (din.addr NDIRECT) (setWord (view s (din.addr NDIRECT)) (k - NDIRECT) s.freeblock)) := by
    rw [sector, if_neg hd, addrOrNew, if_neg hi]
    simp only [rsect_view hg hlow hhigh]
    show (if _ then _ else _) = _
    rw [if_pos hw]
    rfl
  rw [hsec]
  refine ⟨fun hfit => ⟨_, _, _, rfl, rfl, ?_⟩, fun hfit => ⟨"read", rsect_error ?_⟩⟩
  · obtain ⟨hnew, hupd, hgood⟩ := entry_new hg hlow hhigh hfit
    refine ⟨?_, hgood, Nat.lt_succ_self _, ?_, rfl, rfl⟩
    · have hj : k - NDIRECT < NINDIRECT := Nat.sub_lt_left_of_lt_add (by omega) hmax
      rw [bmap, if_neg hd, if_pos hj, Fs.addrOrAlloc, if_neg hi]
      simp only [bind, Except.bind, pure, Except.pure, hw, if_true, hnew]
      exact congrArg (fun d => Except.ok (_, d, _)) hupd
    · exact iff_of_true hi (Nat.lt_succ_of_lt hk)
  · show max s.nsect (din.addr NDIRECT + 1) ≤ s.freeblock
    rw [hg.nsect]
    omega

/-- **One round maps the block that the kernel maps**, if the image has room for it. -/
theorem sector_spec (h : Owned sb (view s) ino All K) (ho : Open sb ino ⟨i, din⟩)
    (hup : Upto (view s) din k) (hle : fbn ≤ k) (hmax : fbn < MAXFILE) :
    (s.freeblock + taken (max k (fbn + 1)) ≤ FSSIZE + taken k → ∃ x din' s', sector s din fbn = .ok (x, din', s') ∧
      s'.freeblock + taken k = s.freeblock + taken (max k (fbn + 1)) ∧
      Placed s din i fbn (max k (fbn + 1)) x din' s') ∧
    (¬ s.freeblock + taken (max k (fbn + 1)) ≤ FSSIZE + taken k →
      ∃ m, (sector s din fbn >>= fun r => rsect r.2.2 r.1) = .error m) := by
  rcases Nat.lt_or_eq_of_le hle with hlt | rfl
  · -- the file has it
    have h0 := (hup.data fbn hmax).mpr hlt
    rw [max_eq_left hlt]
    have hhigh := hg.high
    refine ⟨fun _ => ⟨_, _, _, sector_old hg h ho hup hlt hmax, rfl, ?_⟩, fun hfit => absurd hfit (by omega)⟩
    have hu := ho.uses (L := All) (t := .data fbn) hmax trivial h0
    exact ⟨Fs.bmap_old hmax h0, hg, (uses_range hg h hu).2, hup.indirect, rfl, rfl⟩
  · rw [max_eq_right (Nat.le_succ fbn)]
    rcases lt_trichotomy fbn NDIRECT with hd | rfl | hd
    · have htaken : taken (fbn + 1) = taken fbn + 1 := by
        unfold taken
        rw [if_neg (by omega), if_neg (by omega)]
      obtain ⟨hsec, hplaced⟩ := sector_direct hg hup hd
      rw [htaken, hsec]
      refine ⟨fun hfit => ⟨_, _, _, rfl, ?_, hplaced (by omega)⟩, fun hfit => ⟨"read", rsect_error ?_⟩⟩
      · show s.freeblock + 1 + _ = _
        omega
      · show s.nsect ≤ s.freeblock
        rw [hg.nsect]
        omega
    · have htaken : taken (NDIRECT + 1) = taken NDIRECT + 2 := by decide
      obtain ⟨hfits, hfails⟩ := sector_first hg hup
      rw [htaken]
      refine ⟨fun hfit => ?_, fun hfit => hfails (by omega)⟩
      obtain ⟨x, din', s', hsec, hfb, hp⟩ := hfits (by omega)
      exact ⟨x, din', s', hsec, by omega, hp⟩
    · have htaken : taken (fbn + 1) = taken fbn + 1 := by
        unfold taken
        rw [if_pos (by omega), if_pos (by omega)]
      obtain ⟨hfits, hfails⟩ := sector_indirect hg h ho hup hd hmax
      rw [htaken]
      refine ⟨fun hfit => ?_, fun hfit => hfails (by omega)⟩
      obtain ⟨x, din', s', hsec, hfb, hp⟩ := hfits (by omega)
      exact ⟨x, din', s', hsec, by omega, hp⟩

end

end Sector

/-! ### The loop of `iappend` -/

variable {m : Nat}

theorem nblk_of_chunk {off : Nat} (hm : 0 < m) (hle : m ≤ BSIZE - off % BSIZE) : nblk (off + m) = off / BSIZE + 1 := by
  have hdm := Nat.div_add_mod off BSIZE
  refine Nat.div_eq_of_lt_le ?_ ?_
  · rw [add_mul, mul_comm]
    omega
  · rw [add_mul, add_mul, mul_comm]
    omega

theorem div_le_nblk (off : Nat) : off / BSIZE ≤ nblk off ∧ nblk off ≤ off / BSIZE + 1 := by
  have hb : 0 < BSIZE := by decide
  refine ⟨Nat.div_le_div_right (by omega), ?_⟩
  rw [← Nat.add_div_right off hb]
  exact Nat.div_le_div_right (by omega)

theorem nblk_mono {n : Nat} (h : m ≤ n) : nblk m ≤ nblk n := Nat.div_le_div_right (by omega)

section Append

variable {s s' : St} {din din' : DInode} {x : Nat} {d : Disk} {ino : Nat → DInode} {K : Nat → Prop} {ip : Inode}
  {off tot m : Nat} {data : List UInt8}

/-- What a round leaves: a block more, or not. -/
theorem Placed.store (ho : Open sb ino ip) (hst : Stored sb d ino K ip (view s) ⟨ip.inum, din⟩) {k fbn : Nat}
    (hup : Upto (view s) din k) (hle : fbn ≤ k) (hmax : fbn < MAXFILE)
    (hp : Placed s din ip.inum fbn (max k (fbn + 1)) x din' s') (blk : Block) :
    rsect s' x = .ok (view s' x) ∧ view (wsect s' x blk) = update (view s') x blk ∧ Good (wsect s' x blk) ∧
      Stored sb d ino K ip (view (wsect s' x blk)) ⟨ip.inum, din'⟩ ∧
      Upto (view (wsect s' x blk)) din' (max k (fbn + 1)) := by
  have ho₁ := hst.isOpen ho
  have ht := (Fs.bmap_spec layout hst.owned ho₁ hmax).of_ok hp.kernel
  have hu := ht.uses ho₁ hmax
  have hlow := (uses_range hp.good ht.owned hu).1
  have hview := view_wsect s' (ne_bmap hlow) blk
  refine ⟨rsect_view hp.good hlow hp.lt, hview, hp.good.wsect (le_trans (by decide) hlow) hp.lt blk, ?_, ?_, hp.indirect⟩
  · rw [hview]
    exact hst.chunk layout ho hmax ht blk
  intro bn hbn
  rw [hview, Fs.blockAt_store ht.owned (ht.isOpen ho₁) hu blk bn]
  rcases eq_or_ne bn fbn with rfl | he
  · have hval : blockAt (view s') din' bn = x := ht.val
    exact iff_of_true (hval.trans_ne ht.ne) (lt_max_of_lt_right (Nat.lt_succ_self _))
  have hother : blockAt (view s') din' bn = blockAt (view s) din bn :=
    ht.others bn hbn fun hs => he (Slot.data.inj hs)
  rw [hother, hup.data bn hbn]
  omega

/-- One round of the loop of `iappend`. -/
theorem appendLoop_round (fuel : Nat) (s : St) (din : DInode)
    (hlt : tot < data.length) (hfbn : (off + tot) / BSIZE < MAXFILE)
    (hm : m = min (data.length - tot) (BSIZE - (off + tot) % BSIZE)) :
    appendLoop (fuel + 1) s din (off + tot) (data.drop tot) = (do
      let r ← sector s din ((off + tot) / BSIZE)
      let buf ← rsect r.2.2 r.1
      appendLoop fuel (wsect r.2.2 r.1 (buf.patch ((off + tot) % BSIZE) ((data.drop tot).take m))) r.2.1
        (off + (tot + m)) (data.drop (tot + m))) := by
  have hdm := Nat.div_add_mod (off + tot) BSIZE
  have hlen : (data.drop tot).length = data.length - tot := length_drop
  have hn1 : min (data.length - tot) (((off + tot) / BSIZE + 1) * BSIZE - (off + tot)) = m := by
    rw [add_mul, mul_comm]
    omega
  have hpos : off + tot - (off + tot) / BSIZE * BSIZE = (off + tot) % BSIZE := by
    rw [mul_comm]
    omega
  rw [appendLoop, if_pos (by omega)]
  simp only [if_pos hfbn, hlen, hn1, hpos, drop_drop, add_assoc]

/-- One round of the loop of `writei`. -/
theorem writeLoop_round {b : Nat} (fuel : Nat) {d₁ d₂ : Disk} {ip₁ ip₂ : Inode}
    (hlt : tot < data.length) (hm : m = min (data.length - tot) (BSIZE - (off + tot) % BSIZE))
    (hb : bmap sb d₁ ip₁ ((off + tot) / BSIZE) = .ok (b, d₂, ip₂)) :
    Fs.writeLoop sb (fun k => data[k]?) data.length (fuel + 1) d₁ ip₁ tot (off + tot)
      = Fs.writeLoop sb (fun k => data[k]?) data.length fuel
          (update d₂ b ((d₂ b).patch ((off + tot) % BSIZE) ((data.drop tot).take m))) ip₂ (tot + m)
          (off + (tot + m)) := by
  have hlen : ((data.drop tot).take m).length = m := by
    rw [length_take, length_drop]
    omega
  have hcopy : Fs.copyin (fun k => data[k]?) tot m = (data.drop tot).take m := by
    have hcopied := Fs.copyin_eq (show ∀ k, k < ((data.drop tot).take m).length → data[tot + k]? = ((data.drop tot).take m)[k]? by
      intro k hk
      rw [hlen] at hk
      rw [getElem?_take_of_lt hk, getElem?_drop])
    rw [hlen] at hcopied
    exact hcopied
  rw [Fs.writeLoop, if_pos hlt, hb]
  simp only [bind, Except.bind, ← hm, hcopy, hlen, lt_irrefl, if_false, add_assoc]

/-- What the loop has done when the image had room. -/
structure Appended (s : St) (din : DInode) (i : Nat) (data : List UInt8) (off tot fuel : Nat) (din' : DInode)
    (s' : St) : Prop where
  ok : appendLoop fuel s din (off + tot) (data.drop tot) = .ok (din', off + data.length, s')
  kernel : Fs.writeLoop sb (fun k => data[k]?) data.length fuel (view s) ⟨i, din⟩ tot (off + tot)
    = .ok (data.length, off + data.length, view s', ⟨i, din'⟩)
  good : Good s'
  upto : Upto (view s') din' (nblk (off + data.length))
  blocks : s'.freeblock + taken (nblk (off + tot)) = s.freeblock + taken (nblk (off + data.length))
  freeinode : s'.freeinode = s.freeinode
  inodeBlocks : s'.inodeBlocks = s.inodeBlocks

/-- **The loop of `iappend` is the loop of `writei`**, if the image has room. -/
theorem appendLoop_spec (ho : Open sb ino ip) (hmax : off + data.length ≤ MAXFILE * BSIZE)
    (fuel : Nat) (hfuel : data.length ≤ tot + fuel) (htot : tot ≤ data.length) (hg : Good s)
    (hst : Stored sb d ino K ip (view s) ⟨ip.inum, din⟩) (hup : Upto (view s) din (nblk (off + tot))) :
    (s.freeblock + taken (nblk (off + data.length)) ≤ FSSIZE + taken (nblk (off + tot)) →
      ∃ din' s', Appended s din ip.inum data off tot fuel din' s') ∧
    (¬ s.freeblock + taken (nblk (off + data.length)) ≤ FSSIZE + taken (nblk (off + tot)) →
      ∃ m, appendLoop fuel s din (off + tot) (data.drop tot) = .error m) := by
  have hhigh := hg.high
  induction fuel generalizing tot s din with
  | zero =>
    obtain rfl : tot = data.length := by omega
    exact ⟨fun _ => ⟨din, s, rfl, rfl, hg, hup, rfl, rfl, rfl⟩, fun hfit => absurd hfit (by omega)⟩
  | succ fuel ih =>
    by_cases hlt : tot < data.length
    · have hmod : (off + tot) % BSIZE < BSIZE := Nat.mod_lt _ (by decide)
      have hfbn : (off + tot) / BSIZE < MAXFILE := Fs.div_lt_maxfile (by omega)
      obtain ⟨m, hm⟩ : ∃ m, m = min (data.length - tot) (BSIZE - (off + tot) % BSIZE) := ⟨_, rfl⟩
      have hmb : m ≤ BSIZE - (off + tot) % BSIZE := hm ▸ min_le_right _ _
      have hm0 : 0 < m := hm ▸ lt_min (by omega) (by omega)
      have hnext : nblk (off + (tot + m)) = (off + tot) / BSIZE + 1 := by
        rw [← add_assoc]
        exact nblk_of_chunk hm0 hmb
      have hmaxk : max (nblk (off + tot)) ((off + tot) / BSIZE + 1) = nblk (off + (tot + m)) := by
        rw [hnext]
        exact max_eq_right (div_le_nblk _).2
      have hgrow : taken (nblk (off + (tot + m))) ≤ taken (nblk (off + data.length)) :=
        taken_mono (nblk_mono (by omega))
      have hfuel' : data.length ≤ tot + m + fuel := by omega
      have htot' : tot + m ≤ data.length := by omega
      obtain ⟨hfits, hfails⟩ := sector_spec hg hst.owned (hst.isOpen ho) hup (div_le_nblk _).1 hfbn
      rw [hmaxk] at hfits hfails
      by_cases hroom : s.freeblock + taken (nblk (off + (tot + m))) ≤ FSSIZE + taken (nblk (off + tot))
      · obtain ⟨x, din₁, s₁, hsec, hfb, hp⟩ := hfits hroom
        obtain ⟨blk, hblk⟩ : ∃ blk, blk = (view s₁ x).patch ((off + tot) % BSIZE) ((data.drop tot).take m) := ⟨_, rfl⟩
        obtain ⟨hread, hview, hgood, hstored, hupto⟩ :=
          Placed.store ho hst hup (div_le_nblk _).1 hfbn (hmaxk ▸ hp) blk
        rw [hmaxk] at hupto
        obtain ⟨ihfits, ihfails⟩ := ih hfuel' htot' hgood hstored hupto hgood.high
        have hloop : appendLoop (fuel + 1) s din (off + tot) (data.drop tot)
            = appendLoop fuel (wsect s₁ x blk) din₁ (off + (tot + m)) (data.drop (tot + m)) := by
          rw [appendLoop_round fuel s din hlt hfbn hm, hsec, hblk]
          simp only [bind, Except.bind, hread]
        rw [hloop]
        have hiff : (wsect s₁ x blk).freeblock + taken (nblk (off + data.length)) ≤ FSSIZE + taken (nblk (off + (tot + m)))
            ↔ s.freeblock + taken (nblk (off + data.length)) ≤ FSSIZE + taken (nblk (off + tot)) := by
          rw [wsect_freeblock]
          clear ihfits ihfails hfits hfails
          omega
        refine ⟨fun hfit => ?_, fun hfit => ihfails (mt hiff.mp hfit)⟩
        obtain ⟨din', s', happ⟩ := ihfits (hiff.mpr hfit)
        refine ⟨din', s', hloop.trans happ.ok, ?_, happ.good, happ.upto, ?_, ?_, ?_⟩
        · rw [writeLoop_round fuel hlt hm hp.kernel, ← hblk, ← hview]
          exact happ.kernel
        · have hsum := happ.blocks
          rw [wsect_freeblock] at hsum
          clear ihfits ihfails hfits hfails
          omega
        · exact happ.freeinode.trans hp.freeinode
        · exact happ.inodeBlocks.trans hp.inodeBlocks
      · obtain ⟨msg, hmsg⟩ := hfails hroom
        have hno : ¬ s.freeblock + taken (nblk (off + data.length)) ≤ FSSIZE + taken (nblk (off + tot)) := by
          clear hfits hfails
          omega
        refine ⟨fun hfit => absurd hfit hno, fun _ => ⟨msg, ?_⟩⟩
        rw [appendLoop_round fuel s din hlt hfbn hm]
        rcases hsec : sector s din ((off + tot) / BSIZE) with m₁ | r <;> rw [hsec] at hmsg
        · obtain rfl : m₁ = msg := Except.error.inj hmsg
          rfl
        · have hread : rsect r.2.2 r.1 = .error msg := hmsg
          simp only [bind, Except.bind, hread]
    · obtain rfl : tot = data.length := by omega
      have hloop : appendLoop (fuel + 1) s din (off + data.length) (data.drop data.length)
          = .ok (din, off + data.length, s) := by
        rw [appendLoop, if_neg (by simp)]
      refine ⟨fun _ => ⟨din, s, hloop, ?_, hg, hup, rfl, rfl, rfl⟩, fun hfit => absurd hfit (by omega)⟩
      rw [Fs.writeLoop, if_neg hlt]

/-- The loop stops at the largest file. -/
theorem appendLoop_max {fuel : Nat} {p : List UInt8} {r : DInode × Nat × St} (hp : p.length ≤ fuel)
    (hoff : off ≤ MAXFILE * BSIZE) (h : appendLoop fuel s din off p = .ok r) : off + p.length ≤ MAXFILE * BSIZE := by
  induction fuel generalizing s din off p with
  | zero => omega
  | succ fuel ih =>
    rw [appendLoop] at h
    by_cases hpos : p.length > 0
    · rw [if_pos hpos] at h
      by_cases hfbn : off / BSIZE < MAXFILE
      · simp only [if_pos hfbn] at h
        have hdm := Nat.div_add_mod off BSIZE
        have hmod : off % BSIZE < BSIZE := Nat.mod_lt _ (by decide)
        have hmax : (off / BSIZE + 1) * BSIZE ≤ MAXFILE * BSIZE := Nat.mul_le_mul_right _ hfbn
        rw [add_mul, mul_comm] at hmax h
        rcases hsec : sector s din (off / BSIZE) with m | ⟨x, din₁, s₁⟩ <;> rw [hsec] at h
        · cases h
        rcases hread : rsect s₁ x with m | buf
        · simp only [bind, Except.bind, hread] at h
          cases h
        simp only [bind, Except.bind, hread] at h
        have hlen := ih (by rw [length_drop]; omega) (by omega) h
        rw [length_drop] at hlen
        omega
      · simp only [if_neg hfbn] at h
        cases h
    · omega

end Append

/-! ### The invariant -/

/-- Inode `i` has this type and this content, and no blocks beyond it. -/
structure Holds (d : Disk) (i : Nat) (e : Int16 × List UInt8) : Prop where
  type : (dinode sb d i).type = e.1
  nlink : (dinode sb d i).nlink = 1
  content : Fs.content d (dinode sb d i) = e.2
  upto : Upto d (dinode sb d i) (nblk e.2.length)

/-- The blocks that an image with these inodes has in use. -/
def total (inos : List (Int16 × List UInt8)) : Nat := nmeta + (inos.map fun e => taken (nblk e.2.length)).sum

/-- What holds of the image between two calls: its inodes, from ROOTINO on. -/
structure Inv (s : St) (inos : List (Int16 × List UInt8)) : Prop where
  good : Good s
  count : s.freeinode = inos.length + 1
  few : inos.length < NINODES
  wf : Fs.Wf sb (view s)
  owned : Owned sb (view s) (dinode sb (view s)) All fun _ => False
  type : ∀ e ∈ inos, e.1 ≠ 0
  holds : ∀ k e, inos[k]? = some e → Holds (view s) (k + 1) e
  free : ∀ i, i < NINODES → i = 0 ∨ inos.length < i → dinode sb (view s) i = DInode.zero
  blocks : s.freeblock = total inos
  region : ∀ b ∈ s.inodeBlocks, sb.inodestart ≤ b ∧ b < sb.bmapstart

/-- The inodes fit into an image. -/
structure Fits (inos : List (Int16 × List UInt8)) : Prop where
  size : ∀ e ∈ inos, e.2.length ≤ MAXFILE * BSIZE
  blocks : total inos ≤ FSSIZE

/-- A call that leaves these inodes, and that succeeds if they fit. -/
structure Makes (r : Except String St) (inos : List (Int16 × List UInt8)) : Prop where
  inv : ∀ s, r = .ok s → Inv s inos
  ok : Fits inos → ∃ s, r = .ok s

/-! ### Inodes -/

section Inodes

variable {s s' : St} {i : Nat} {di din' : DInode} {k : Nat} {di' : DInode} {d d' : Disk}

theorem iblock_ne (hi : i < NINODES) : sb.iblock i ≠ sb.bmapstart := (iblock_lt hi).2.ne

theorem iblock_lt_nmeta (hi : i < NINODES) : sb.iblock i < nmeta :=
  (iblock_lt hi).2.trans (by decide)

theorem Good.iblock_lt_nsect (hg : Good s) (hi : i < NINODES) : sb.iblock i < s.nsect := by
  rw [hg.nsect]
  exact (iblock_lt_nmeta hi).trans_le (hg.low.trans hg.high)

theorem rinode_view (hg : Good s) (hi : i < NINODES) : rinode s i = .ok (dinode sb (view s) i) := by
  rw [rinode, rsect_ok (hg.iblock_lt_nsect hi), dinode, view_of_ne s (iblock_ne hi)]
  rfl

/-- An inode is written. -/
theorem winode_view (hg : Good s) (hi : i < NINODES) (di : DInode) :
    ∃ s', winode s i di = .ok s' ∧ view s' = setDinode sb (view s) i di ∧ Good s' ∧ s'.freeblock = s.freeblock ∧
      s'.freeinode = s.freeinode ∧ s'.inodeBlocks = s.inodeBlocks ++ [sb.iblock i] := by
  have hw : winode s i di = .ok { wsect s (sb.iblock i) (putDinode (s.img (sb.iblock i)) (i % IPB) di) with
      inodeBlocks := s.inodeBlocks ++ [sb.iblock i] } := by
    rw [winode, rsect_ok (hg.iblock_lt_nsect hi)]
    rfl
  refine ⟨_, hw, ?_, ?_, rfl, rfl, rfl⟩
  · show view (wsect s (sb.iblock i) _) = _
    rw [view_wsect s (iblock_ne hi), setDinode, view_of_ne s (iblock_ne hi)]
  · have hlow := (iblock_lt hi).1
    have hgood := hg.wsect hlow ((iblock_lt_nmeta hi).trans_le hg.low) (putDinode (s.img (sb.iblock i)) (i % IPB) di)
    exact ⟨hgood.nsect, hgood.low, hgood.high, hgood.fresh, hgood.first⟩

theorem setSize_self (di : DInode) : di.setSize di.size.toNat = di := by
  unfold DInode.setSize
  rw [UInt32.ofNat_toNat]

/-- **`iappend` is `writei` at the end of the file.** -/
theorem writei_view {p : List UInt8} {off : Nat} (hoff : di.size.toNat = off) (hmax : off + p.length ≤ MAXFILE * BSIZE)
    (happ : Appended s di i p off 0 p.length din' s') (hsize : din'.size = di.size) :
    Fs.WriteRange ⟨i, di⟩ di.size (UInt32.ofNat p.length) ∧ (UInt32.ofNat p.length).toNat = p.length ∧
      Fs.writei sb (view s) ⟨i, di⟩ (fun k => p[k]?) di.size (UInt32.ofNat p.length)
        = .ok (p.length, setDinode sb (view s') i (din'.setSize (off + p.length)), ⟨i, din'.setSize (off + p.length)⟩) := by
  subst hoff
  have hlim : MAXFILE * BSIZE < 2 ^ 32 := by decide
  have hn : (UInt32.ofNat p.length).toNat = p.length := UInt32.toNat_ofNat_of_lt' (show p.length < 2 ^ 32 by omega)
  have hr : Fs.WriteRange ⟨i, di⟩ di.size (UInt32.ofNat p.length) := by
    refine ⟨le_rfl, ?_, ?_⟩ <;> rw [hn] <;> omega
  have hloop := happ.kernel
  rw [add_zero] at hloop
  refine ⟨hr, hn, ?_⟩
  rw [Fs.writei_eq hr, hn, hloop]
  by_cases hp : p.length = 0
  · have hself : din'.setSize (di.size.toNat + p.length) = din' := by
      rw [hp, ← hsize]
      exact setSize_self din'
    have hnot : ¬ di.size.toNat + p.length > din'.size.toNat := by
      rw [hsize]
      omega
    simp only [bind, Except.bind, if_neg hnot, hself]
    rfl
  · have hgt : di.size.toNat + p.length > din'.size.toNat := by
      rw [hsize]
      omega
    simp only [bind, Except.bind, if_pos hgt]
    rfl

/-- The blocks of an inode do not depend on the inode blocks. -/
theorem blockAt_addrs (haddrs : di'.addrs = di.addrs)
    (hind : di.addr NDIRECT ≠ 0 → d' (di.addr NDIRECT) = d (di.addr NDIRECT)) (bn : Nat) :
    blockAt d' di' bn = blockAt d di bn :=
  (Slot.val_addrs haddrs (.data bn)).trans (Fs.blockAt_congr hind bn)

theorem Upto.congr (h : Upto d di k) (haddrs : di'.addrs = di.addrs)
    (hind : di.addr NDIRECT ≠ 0 → d' (di.addr NDIRECT) = d (di.addr NDIRECT)) : Upto d' di' k := by
  refine ⟨fun bn hbn => ?_, ?_⟩
  · rw [blockAt_addrs haddrs hind]
    exact h.data bn hbn
  · rw [Fs.addr_congr haddrs]
    exact h.indirect

theorem total_append (pre post : List (Int16 × List UInt8)) (e : Int16 × List UInt8) :
    total (pre ++ e :: post) = total pre + taken (nblk e.2.length) + (post.map fun e => taken (nblk e.2.length)).sum := by
  simp [total, add_assoc]

/-- What stands in a list with one element replaced. -/
theorem getElem?_replace {α : Type} {pre post : List α} {a b e : α} (h : (pre ++ b :: post)[k]? = some e) :
    k = pre.length ∧ e = b ∨ k ≠ pre.length ∧ (pre ++ a :: post)[k]? = some e := by
  rcases lt_trichotomy k pre.length with hk | rfl | hk
  · rw [getElem?_append_left hk] at h
    exact .inr ⟨hk.ne, by rw [getElem?_append_left hk]; exact h⟩
  · rw [getElem?_append_right le_rfl, Nat.sub_self] at h
    exact .inl ⟨rfl, (Option.some.inj h).symm⟩
  obtain ⟨j, rfl⟩ : ∃ j, k = pre.length + (j + 1) := ⟨k - pre.length - 1, by omega⟩
  rw [getElem?_append_right (by omega), Nat.add_sub_cancel_left] at h
  refine .inr ⟨by omega, ?_⟩
  rw [getElem?_append_right (by omega), Nat.add_sub_cancel_left]
  exact h

variable {pre post : List (Int16 × List UInt8)} {ty : Int16} {data p : List UInt8}

/-- An inode of the list, as the kernel sees it. -/
theorem Inv.open (h : Inv s (pre ++ (ty, data) :: post)) :
    pre.length + 1 < NINODES ∧ Open sb (dinode sb (view s)) ⟨pre.length + 1, dinode sb (view s) (pre.length + 1)⟩ ∧
      Holds (view s) (pre.length + 1) (ty, data) ∧ (dinode sb (view s) (pre.length + 1)).size.toNat = data.length := by
  have hlt : pre.length + 1 < NINODES := by
    have hfew := h.few
    rw [length_append, length_cons] at hfew
    omega
  have hh := h.holds pre.length (ty, data) (by rw [getElem?_append_right le_rfl, Nat.sub_self]; rfl)
  refine ⟨hlt, ⟨hlt, ?_, rfl⟩, hh, ?_⟩
  · rw [hh.type]
    exact h.type (ty, data) (by simp)
  · rw [← Fs.content_length (view s), hh.content]

/-- What a call that works on inode `i` leaves of the others. -/
structure Rest (d d' : Disk) (i : Nat) : Prop where
  dinode : ∀ j, j < NINODES → j ≠ i → dinode sb d' j = dinode sb d j
  content : ∀ j, j < NINODES → j ≠ i → (Xv6.dinode sb d j).type ≠ 0 →
    Fs.content d' (Xv6.dinode sb d' j) = Fs.content d (Xv6.dinode sb d j)
  indirect : ∀ j, j < NINODES → j ≠ i → (Xv6.dinode sb d j).type ≠ 0 → (Xv6.dinode sb d j).addr NDIRECT ≠ 0 →
    d' ((Xv6.dinode sb d j).addr NDIRECT) = d ((Xv6.dinode sb d j).addr NDIRECT)

theorem Holds.rest {e : Int16 × List UInt8} (h : Holds d k e) (hr : Rest d d' i) (hk : k < NINODES)
    (hne : k ≠ i) (he : e.1 ≠ 0) : Holds d' k e := by
  have hty : (dinode sb d k).type ≠ 0 := by
    rw [h.type]
    exact he
  have hsame := hr.dinode k hk hne
  refine ⟨?_, ?_, (hr.content k hk hne hty).trans h.content, ?_⟩ <;> rw [hsame]
  · exact h.type
  · exact h.nlink
  · exact h.upto.congr rfl (hr.indirect k hk hne hty)

/-- One inode of the list is changed. -/
theorem Inv.replace {a b : Int16 × List UInt8} (h : Inv s (pre ++ a :: post)) (hg : Good s') (hfi : s'.freeinode = s.freeinode)
    (hwf : Fs.Wf sb (view s')) (hown : Owned sb (view s') (dinode sb (view s')) All fun _ => False) (hb : b.1 = a.1)
    (hholds : Holds (view s') (pre.length + 1) b) (hrest : Rest (view s) (view s') (pre.length + 1))
    (hfb : s'.freeblock + taken (nblk a.2.length) = s.freeblock + taken (nblk b.2.length))
    (hib : ∀ x ∈ s'.inodeBlocks, sb.inodestart ≤ x ∧ x < sb.bmapstart) : Inv s' (pre ++ b :: post) := by
  have hlen : (pre ++ b :: post).length = (pre ++ a :: post).length := by simp
  refine ⟨hg, ?_, hlen ▸ h.few, hwf, hown, ?_, ?_, fun i hi hfree => ?_, ?_, hib⟩
  · rw [hfi, h.count, hlen]
  · intro e he
    rcases mem_append.mp he with he | he
    · exact h.type e (mem_append_left _ he)
    rcases mem_cons.mp he with rfl | he
    · rw [hb]
      exact h.type a (by simp)
    · exact h.type e (mem_append_right _ (mem_cons_of_mem _ he))
  · intro k e hk
    rcases getElem?_replace hk with ⟨rfl, rfl⟩ | ⟨hne, hk⟩
    · exact hholds
    have hklt : k < (pre ++ a :: post).length := (List.getElem?_eq_some_iff.mp hk).1
    have hkn : k + 1 < NINODES := lt_of_le_of_lt hklt h.few
    have hne' : k + 1 ≠ pre.length + 1 := by omega
    exact (h.holds k e hk).rest hrest hkn hne' (h.type e (mem_of_getElem? hk))
  · rw [hlen] at hfree
    have hne : i ≠ pre.length + 1 := by
      rw [length_append, length_cons] at hfree
      omega
    rw [hrest.dinode i hi hne]
    exact h.free i hi hfree
  · have htot := h.blocks
    rw [total_append] at htot ⊢
    omega

/-- The invariant after the loop and the write of the inode. -/
theorem Inv.appended (h : Inv s (pre ++ (ty, data) :: post)) (hmax : data.length + p.length ≤ MAXFILE * BSIZE)
    (happ : Appended s (dinode sb (view s) (pre.length + 1)) (pre.length + 1) p data.length 0 p.length din' s')
    {s'' : St} (hview : view s'' = setDinode sb (view s') (pre.length + 1) (din'.setSize (data.length + p.length)))
    (hg : Good s'') (hfb : s''.freeblock = s'.freeblock) (hfi : s''.freeinode = s'.freeinode)
    (hib : s''.inodeBlocks = s'.inodeBlocks ++ [sb.iblock (pre.length + 1)]) :
    Inv s'' (pre ++ (ty, data ++ p) :: post) := by
  obtain ⟨hlt, ho, hh, hsz⟩ := h.open
  have hst : Stored sb (view s) (dinode sb (view s)) (fun _ => False)
      ⟨pre.length + 1, dinode sb (view s) (pre.length + 1)⟩ (view s') ⟨pre.length + 1, din'⟩ :=
    ((Fs.writeLoop_stored layout ho hmax p.length (Nat.zero_le _) (Stored.refl h.owned ho)).of_ok happ.kernel).2.2
  obtain ⟨hr, hn, hw⟩ := writei_view hsz hmax happ (Fs.size_of_attrs hst.attrs)
  rw [← hview] at hw
  obtain ⟨-, hwrote, hcont⟩ := (Fs.writei_list h.wf ho hr hn fun _ _ => rfl).of_ok hw
  have hset := (Fs.writei_owned layout h.owned ho _ _ _).of_ok hw
  -- the write of the inode does not touch data blocks
  have hdata : ∀ x, nmeta ≤ x → view s'' x = view s' x := by
    intro x hx
    rw [hview]
    exact Fs.setDinode_high layout hlt _ (le_trans (by decide) hx)
  refine h.replace hg (hfi.trans happ.freeinode) hwrote.wf hset.owned rfl ?_ ?_ ?_ ?_
  · have hcur : dinode sb (view s'') (pre.length + 1) = din'.setSize (data.length + p.length) := hwrote.cur.cur
    refine ⟨?_, ?_, ?_, ?_⟩ <;> rw [hcur]
    · exact (Fs.type_of_attrs hst.attrs).trans hh.type
    · have hnl : din'.attrs.nlink = (dinode sb (view s) (pre.length + 1)).attrs.nlink := by rw [hst.attrs]
      exact hnl.trans hh.nlink
    · rw [hh.content, hsz] at hcont
      refine hcont.trans ?_
      simp [splice]
    · rw [length_append]
      refine happ.upto.congr rfl fun h0 => hdata _ ?_
      exact (indirect_range happ.good hst.owned (hst.isOpen ho) h0).1
  · refine ⟨fun j hj hne => (hwrote.others j hj hne).1, fun j hj hne => (hwrote.others j hj hne).2, ?_⟩
    intro j hj hne hty h0
    have hu : Uses sb (view s) (dinode sb (view s)) All j .indirect ((dinode sb (view s) j).addr NDIRECT) :=
      ⟨hj, hty, trivial, trivial, rfl, h0⟩
    have hkept := (hst.kept _ _ _ hu).1 hne
    rw [hdata _ (uses_range h.good h.owned hu).1, hkept]
  · have hsum := happ.blocks
    rw [hfb, length_append]
    exact hsum
  · intro b hb
    rw [hib, happ.inodeBlocks] at hb
    rcases mem_append.mp hb with hb | hb
    · exact h.region b hb
    · rw [mem_singleton.mp hb]
      exact iblock_lt hlt

/-- **`iappend` appends**, if the inodes still fit. -/
theorem iappend_spec (h : Inv s (pre ++ (ty, data) :: post)) (p : List UInt8) :
    Makes (iappend s (pre.length + 1) p) (pre ++ (ty, data ++ p) :: post) := by
  obtain ⟨hlt, ho, hh, hsz⟩ := h.open
  obtain ⟨di, hdi⟩ : ∃ di, di = dinode sb (view s) (pre.length + 1) := ⟨_, rfl⟩
  rw [← hdi] at hsz
  have hcall : iappend s (pre.length + 1) p
      = (appendLoop p.length s di data.length p).bind fun r => winode r.2.2 (pre.length + 1) (r.1.setSize r.2.1) := by
    rw [iappend, rinode_view h.good hlt, ← hdi, ← hsz]
    rfl
  by_cases hmax : data.length + p.length ≤ MAXFILE * BSIZE
  · have hspec := appendLoop_spec ho hmax p.length (le_of_eq (Nat.zero_add _).symm) (Nat.zero_le _) h.good
      (Stored.refl h.owned ho) hh.upto
    have hroom : s.freeblock + taken (nblk (data.length + p.length)) ≤ FSSIZE + taken (nblk (data.length + 0)) ↔
        total (pre ++ (ty, data ++ p) :: post) ≤ FSSIZE := by
      have htot := h.blocks
      rw [total_append] at htot ⊢
      rw [length_append, add_zero]
      simp only at htot
      clear hspec
      omega
    rw [hroom] at hspec
    by_cases hfits : total (pre ++ (ty, data ++ p) :: post) ≤ FSSIZE
    · obtain ⟨din', s', happ⟩ := hspec.1 hfits
      obtain ⟨s'', hw, hview, hg, hfb, hfi, hib⟩ := winode_view happ.good hlt (din'.setSize (data.length + p.length))
      have hok : iappend s (pre.length + 1) p = .ok s'' := by
        have hloop : appendLoop p.length s di data.length p = .ok (din', data.length + p.length, s') := hdi ▸ happ.ok
        rw [hcall, hloop]
        exact hw
      refine ⟨fun r hr => ?_, fun _ => ⟨s'', hok⟩⟩
      obtain rfl : s'' = r := Except.ok.inj (hok.symm.trans hr)
      exact h.appended hmax happ hview hg hfb hfi hib
    · obtain ⟨m, hm⟩ := hspec.2 hfits
      have hloop : appendLoop p.length s di data.length p = .error m := hdi ▸ hm
      rw [hcall, hloop]
      exact ⟨by rintro r ⟨⟩, fun hf => absurd hf.blocks hfits⟩
  · have hold : data.length ≤ MAXFILE * BSIZE := by
      rw [← hsz, hdi]
      exact (h.wf.filled _ hlt ho.type).size
    rcases hl : appendLoop p.length s di data.length p with m | r
    · rw [hcall, hl]
      refine ⟨by rintro r ⟨⟩, fun hf => absurd (hf.size (ty, data ++ p) (by simp)) ?_⟩
      rw [length_append]
      exact hmax
    · exact absurd (appendLoop_max le_rfl hold hl) hmax

/-- An inode that has just been allocated. -/
theorem holds_new (hcur : dinode sb d i = di) (hlink : di.nlink = 1) (hsize : di.size = 0)
    (haddrs : di.addrs = fun _ => 0) : Holds d i (di.type, []) := by
  subst hcur
  have hnull := Fs.Slot.val_null (d := d) haddrs
  refine ⟨rfl, hlink, ?_, fun bn _ => ?_, ?_⟩
  · exact length_eq_zero_iff.mp ((Fs.content_length _ _).trans (by rw [hsize]; rfl))
  · have h0 : blockAt d (dinode sb d i) bn = 0 := hnull (.data bn)
    rw [length_nil]
    exact ⟨fun hne => absurd h0 hne, fun hlt => absurd hlt (Nat.not_lt_zero bn)⟩
  · have h0 : (dinode sb d i).addr NDIRECT = 0 := hnull .indirect
    rw [length_nil]
    exact ⟨fun hne => absurd h0 hne, fun hlt => absurd hlt (Nat.not_lt_zero _)⟩

/-- **`ialloc` adds an empty inode**, if there is another one. -/
theorem ialloc_spec {inos : List (Int16 × List UInt8)} (h : Inv s inos) (hty : ty ≠ 0) (hn : inos.length + 1 < NINODES) :
    ∃ s', ialloc s ty = .ok (inos.length + 1, s') ∧ Inv s' (inos ++ [(ty, [])]) := by
  obtain ⟨di, hdi⟩ : ∃ di, di = { DInode.zero with type := ty, nlink := 1 } := ⟨_, rfl⟩
  have hgood : Good { s with freeinode := inos.length + 1 + 1 } :=
    ⟨h.good.nsect, h.good.low, h.good.high, h.good.fresh, h.good.first⟩
  obtain ⟨s', hw, hview, hg, hfb, hfi, hib⟩ := winode_view hgood hn di
  have hview' : view s' = setDinode sb (view s) (inos.length + 1) di := hview
  have hcur : dinode sb (view s') (inos.length + 1) = di := by rw [hview', dinode_setDinode, if_pos rfl]
  have hzero : dinode sb (view s) (inos.length + 1) = DInode.zero := h.free _ hn (.inr (Nat.lt_succ_self _))
  have hdata : ∀ x, sb.bmapstart ≤ x → view s' x = view s x := fun x hx => by
    rw [hview']
    exact Fs.setDinode_high layout hn di hx
  have hkept : ∀ j t c, Uses sb (view s) (dinode sb (view s)) All j t c → view s' c = view s c := fun j t c hu =>
    hdata c (le_trans (by decide) (uses_range h.good h.owned hu).1)
  have hsame : ∀ j, j < NINODES → j ≠ inos.length + 1 → dinode sb (view s') j = dinode sb (view s) j := by
    intro j _ hne
    rw [hview', dinode_setDinode, if_neg hne]
  have hrest : Rest (view s) (view s') (inos.length + 1) := by
    refine ⟨hsame, fun j hj hne hj0 => ?_, fun j hj hne hj0 h0 => ?_⟩
    · rw [hsame j hj hne]
      exact (Fs.file_kept h.wf hj hj0 (hkept j)).2
    · exact hkept j .indirect _ ⟨hj, hj0, trivial, trivial, rfl, h0⟩
  have hown : Owned sb (view s') (dinode sb (view s')) All fun _ => False := by
    rw [hview']
    refine h.owned.renew layout hn di (fun t c hu => hu.2.1 ?_) (.inr ?_)
    · rw [hzero]
      rfl
    · rw [hdi]
      rfl
  have hholds : Holds (view s') (inos.length + 1) (ty, []) := by
    have hnew := holds_new hcur (by rw [hdi]) (by rw [hdi]; rfl) (by rw [hdi]; rfl)
    rwa [show di.type = ty by rw [hdi]] at hnew
  refine ⟨s', ?_, hg, ?_, ?_, ?_, hown, ?_, ?_, ?_, ?_, ?_⟩
  · rw [ialloc, h.count, ← hdi, hw]
    rfl
  · rw [hfi, length_append]
    rfl
  · rw [length_append]
    exact hn
  · refine hown.wf layout fun j hj hj0 => ?_
    by_cases hji : j = inos.length + 1
    · have hs0 : di.size.toNat = 0 := by rw [hdi]; rfl
      rw [hji, hcur]
      exact ⟨by omega, fun k hk => by omega⟩
    · rw [hsame j hj hji] at hj0 ⊢
      exact (Fs.file_kept h.wf hj hj0 (hkept j)).1
  · intro e he
    rcases mem_append.mp he with he | he
    · exact h.type e he
    · rw [mem_singleton.mp he]
      exact hty
  · intro k e hk
    rcases lt_or_ge k inos.length with hkl | hkl
    · rw [getElem?_append_left hkl] at hk
      exact (h.holds k e hk).rest hrest (by omega) (by omega) (h.type e (mem_of_getElem? hk))
    rw [getElem?_append_right hkl] at hk
    obtain ⟨hk0, rfl⟩ := List.getElem?_eq_some_iff.mp hk
    obtain rfl : k = inos.length := by
      rw [length_singleton] at hk0
      omega
    rw [getElem_singleton]
    exact hholds
  · intro j hj hfree
    rw [length_append, length_singleton] at hfree
    rw [hsame j hj (by omega)]
    exact h.free j hj (by omega)
  · rw [hfb]
    refine h.blocks.trans ?_
    rw [total_append, length_nil]
    rfl
  · intro b hb
    rw [hib] at hb
    rcases mem_append.mp hb with hb | hb
    · exact h.region b hb
    · rw [mem_singleton.mp hb]
      exact iblock_lt hn

end Inodes

end Xv6.Mkfs
