/-
Xv6/NoHoles.lean

Files have no holes, so reading never allocates.

`bmap` looks a block up and silently allocates it when there is none.  `readi`
calls it as well, outside of any transaction when `fileread` does.  That this is
harmless rests on an invariant over all the ways in which sizes and addresses
change: the blocks below the size of an inode are there.  `no_holes` is that
invariant for the machine of Itable.lean, on which writes may stop early and
leave blocks behind the end of a file.

That the allocating branch is dead is said without looking at the disk alone:
`readiWith alloc` is `readi` with another function in the place of `balloc`, and
on a file without holes its result does not depend on which one (`readi_pure`).
The only other `log_write` that `readi` can reach is the one for the indirect
block, which comes right after a `balloc`.
-/
import Xv6.Itable

namespace Xv6.Fs

variable {sb : SuperBlock} {d d' : Disk} {ip : Inode}

/-! ### Reading, whatever allocates -/

section Alloc

variable (alloc : Disk → Except String (Nat × Disk))

/-- `addrOrAlloc` with another allocator. -/
def addrWith (d : Disk) (ip : Inode) (k : Nat) : Except String (Nat × Disk × Inode) :=
  if ip.di.addr k = 0 then do
    let (b, d) ← alloc d
    return (b, d, ip.setAddr k b)
  else return (ip.di.addr k, d, ip)

/-- `bmap` with another allocator. -/
def bmapWith (d : Disk) (ip : Inode) (bn : Nat) : Except String (Nat × Disk × Inode) :=
  if bn < NDIRECT then addrWith alloc d ip bn
  else if bn - NDIRECT < NINDIRECT then do
    let (ind, d, ip) ← addrWith alloc d ip NDIRECT
    let j := bn - NDIRECT
    if word (d ind) j = 0 then do
      let (b, d) ← alloc d
      return (b, Function.update d ind (setWord (d ind) j b), ip)
    else return (word (d ind) j, d, ip)
  else .error "bmap: out of range"

/-- The loop of `readi` with another allocator. -/
def readLoopWith (dst : Nat → Bool) (n : Nat) :
    Nat → Disk → Inode → Nat → Nat → List UInt8 → Except String (Int × List UInt8 × Disk × Inode)
  | 0, d, ip, tot, _, out => .ok (tot, out, d, ip)
  | fuel + 1, d, ip, tot, off, out =>
    if tot < n then do
      let (b, d, ip) ← bmapWith alloc d ip (off / BSIZE)
      let m := min (n - tot) (BSIZE - off % BSIZE)
      let bytes := copyout dst tot ((d b).slice (off % BSIZE) m)
      if bytes.length < m then .ok (-1, out ++ bytes, d, ip)
      else readLoopWith dst n fuel d ip (tot + m) (off + m) (out ++ bytes)
    else .ok (tot, out, d, ip)

/-- `readi` with another allocator. -/
def readiWith (d : Disk) (ip : Inode) (dst : Nat → Bool) (off n : UInt32) :
    Except String (Int × List UInt8 × Disk × Inode) :=
  if off > ip.di.size ∨ off + n < off then .ok (0, [], d, ip)
  else
    let n := if off + n > ip.di.size then ip.di.size - off else n
    readLoopWith alloc dst n.toNat n.toNat d ip 0 off.toNat []

end Alloc

theorem bmapWith_balloc (d : Disk) (ip : Inode) (bn : Nat) :
    bmapWith (balloc sb) d ip bn = bmap sb d ip bn := rfl

variable {dst : Nat → Bool} {n fuel tot off bn : Nat} {out : List UInt8}

theorem readLoopWith_balloc :
    readLoopWith (balloc sb) dst n fuel d ip tot off out = readLoop sb dst n fuel d ip tot off out := by
  induction fuel generalizing d ip tot off out with
  | zero => rfl
  | succ fuel ih =>
    rw [readLoopWith, readLoop, bmapWith_balloc]
    simp only [ih]

/-- With `balloc` itself it is `readi`. -/
theorem readiWith_balloc (d : Disk) (ip : Inode) (dst : Nat → Bool) (off n : UInt32) :
    readiWith (balloc sb) d ip dst off n = readi sb d ip dst off n := by
  unfold readiWith readi
  simp only [readLoopWith_balloc]

variable {alloc : Disk → Except String (Nat × Disk)}

/-- `bmap` does not allocate a block that the file has. -/
theorem bmapWith_old (hbn : bn < MAXFILE)
    (h0 : blockAt d ip.di bn ≠ 0) : bmapWith alloc d ip bn = .ok (blockAt d ip.di bn, d, ip) := by
  have haddr : ∀ {k}, ip.di.addr k ≠ 0 → addrWith alloc d ip k = .ok (ip.di.addr k, d, ip) := by
    intro k hk
    rw [addrWith, if_neg hk]
    rfl
  unfold blockAt at h0 ⊢
  unfold bmapWith
  by_cases hd : bn < NDIRECT
  · rw [if_pos hd] at h0
    rw [if_pos hd, if_pos hd, haddr h0]
  have hj : bn - NDIRECT < NINDIRECT := Nat.sub_lt_left_of_lt_add (by omega) hbn
  rw [if_neg hd] at h0
  by_cases hi : ip.di.addr NDIRECT = 0
  · rw [if_pos hi] at h0
    exact absurd rfl h0
  rw [if_neg hi] at h0
  rw [if_neg hd, if_neg hd, if_pos hj, if_neg hi, haddr hi]
  simp only [bind, Except.bind, if_neg h0]
  rfl

/-- The loop of `readi` inside a file without holes is the same for all allocators. -/
theorem readLoopWith_congr (hf : Filled d ip.di) {alloc' : Disk → Except String (Nat × Disk)} (hn : tot ≤ n)
    (hsize : off + (n - tot) ≤ ip.di.size.toNat) :
    readLoopWith alloc dst n fuel d ip tot off out = readLoopWith alloc' dst n fuel d ip tot off out := by
  induction fuel generalizing tot off out with
  | zero => rfl
  | succ fuel ih =>
    rw [readLoopWith, readLoopWith]
    by_cases hlt : tot < n
    · have hfs := hf.size
      have hmap := hf.mapped off (by omega)
      have hbn : off / BSIZE < MAXFILE := div_lt_maxfile (by omega)
      rw [if_pos hlt, if_pos hlt, bmapWith_old hbn hmap, bmapWith_old hbn hmap]
      simp only [bind, Except.bind]
      obtain ⟨m, hm⟩ : ∃ m, m = min (n - tot) (BSIZE - off % BSIZE) := ⟨_, rfl⟩
      split
      · rfl
      · exact ih (by omega) (by omega)
    · rw [if_neg hlt, if_neg hlt]

/-- **Reading never allocates.**  On a file without holes, `readi` changes nothing, and what
it does is the same whatever stands in the place of `balloc`. -/
theorem readi_pure (hf : Filled d ip.di) (dst : Nat → Bool) (off n : UInt32) :
    ∃ ret bytes, ∀ alloc, readiWith alloc d ip dst off n = .ok (ret, bytes, d, ip) := by
  have hspec : readi ⟨0, 0, 0, 0, 0⟩ d ip dst off n = _ := readi_spec hf dst off n
  refine ⟨_, _, fun alloc => Eq.trans ?_ hspec⟩
  rw [← readiWith_balloc]
  unfold readiWith
  by_cases hr : off > ip.di.size ∨ off + n < off
  · rw [if_pos hr, if_pos hr]
  rw [if_neg hr, if_neg hr]
  refine readLoopWith_congr hf (Nat.zero_le _) ?_
  -- the request is cut at the end of the file
  obtain ⟨hoff, hwrap⟩ := not_or.mp hr
  have hoff' : off.toNat ≤ ip.di.size.toNat := by
    rw [gt_iff_lt, UInt32.lt_iff_toNat_lt] at hoff
    omega
  rw [add_lt_self_iff] at hwrap
  split
  · rw [UInt32.toNat_sub_of_le _ _ (UInt32.le_iff_toNat_le.mpr hoff')]
    omega
  · rename_i hgt
    rw [gt_iff_lt, UInt32.lt_iff_toNat_lt, UInt32.toNat_add, Nat.mod_eq_of_lt (by omega)] at hgt
    omega

/-! ### The invariant -/

/-- No allocated inode has a hole. -/
def NoHoles (sb : SuperBlock) (d : Disk) : Prop :=
  ∀ i, i < sb.ninodes → (dinode sb d i).type ≠ 0 → Filled d (dinode sb d i)

/-- The inodes that are not allocated are empty. -/
def FreeEmpty (sb : SuperBlock) (d : Disk) : Prop :=
  ∀ i, i < sb.ninodes → (dinode sb d i).type = 0 → (dinode sb d i).size = 0

variable {di : DInode}

theorem Filled.empty (h : di.size = 0) : Filled d di := by
  have h0 : di.size.toNat = 0 := by rw [h]; rfl
  exact ⟨by omega, fun k hk => by omega⟩

/-- What a call does to an inode when it stores no content: it empties the inode, or changes
neither its size nor its addresses. -/
def Keep (sb : SuperBlock) (d d' : Disk) (i : Nat) : Prop :=
  (dinode sb d' i).size = 0 ∨
    (dinode sb d' i).size = (dinode sb d i).size ∧ (dinode sb d' i).addrs = (dinode sb d i).addrs ∧
      ((dinode sb d' i).type = 0 ↔ (dinode sb d i).type = 0)

variable {K : Nat → Prop}

/-- A call that stores no content and leaves the data blocks alone. -/
theorem NoHoles.keep (h : NoHoles sb d) (hown : Owned sb d (dinode sb d) All K)
    (hhigh : ∀ x, sb.datastart ≤ x → d' x = d x) (hkeep : ∀ i, i < sb.ninodes → Keep sb d d' i) :
    NoHoles sb d' := by
  intro i hi hty
  rcases hkeep i hi with h0 | ⟨hsize, haddrs, htype⟩
  · exact Filled.empty h0
  have hty' : (dinode sb d i).type ≠ 0 := mt htype.mpr hty
  have hf := h i hi hty'
  have haddr : ∀ k, (dinode sb d' i).addr k = (dinode sb d i).addr k := fun k => by
    unfold DInode.addr
    rw [haddrs]
  have hind : (dinode sb d i).addr NDIRECT ≠ 0 →
      d' ((dinode sb d i).addr NDIRECT) = d ((dinode sb d i).addr NDIRECT) := fun hi0 =>
    hhigh _ (hown.data i .indirect _ ⟨hi, hty', trivial, trivial, rfl, hi0⟩).1
  have hblock : ∀ bn, blockAt d' (dinode sb d' i) bn = blockAt d (dinode sb d i) bn := fun bn => by
    rw [← blockAt_congr hind bn]
    unfold blockAt
    simp only [haddr]
  refine ⟨by rw [hsize]; exact hf.size, fun k hk => ?_⟩
  rw [hblock]
  rw [hsize] at hk
  exact hf.mapped k hk

theorem FreeEmpty.keep (h : FreeEmpty sb d) (hkeep : ∀ i, i < sb.ninodes → Keep sb d d' i) : FreeEmpty sb d' := by
  intro i hi hty
  rcases hkeep i hi with h0 | ⟨hsize, -, htype⟩
  · exact h0
  · rw [hsize]
    exact h i hi (htype.mp hty)

/-- Neither holes nor content in free inodes, unless there was some before. -/
structure Solid (sb : SuperBlock) (d d' : Disk) : Prop where
  noHoles : NoHoles sb d'
  freeEmpty : FreeEmpty sb d → FreeEmpty sb d'

variable {s s' : ISys} {e : Fin NINODE}

theorem Solid.refl (h : NoHoles sb d) : Solid sb d d := ⟨h, id⟩

theorem solid_keep (h : NoHoles sb d) (hown : Owned sb d (dinode sb d) All K)
    (hhigh : ∀ x, sb.datastart ≤ x → d' x = d x) (hkeep : ∀ i, i < sb.ninodes → Keep sb d d' i) :
    Solid sb d d' :=
  ⟨h.keep hown hhigh hkeep, fun hf => hf.keep hkeep⟩

/-- One inode is written to disk. -/
theorem solid_setDinode (hl : sb.Layout) (h : NoHoles sb d)
    (hown : Owned sb d (dinode sb d) All K) {i : Nat} (hi : i < sb.ninodes)
    (hdi : di.size = 0 ∨ di.size = (dinode sb d i).size ∧ di.addrs = (dinode sb d i).addrs ∧
      (di.type = 0 ↔ (dinode sb d i).type = 0)) : Solid sb d (setDinode sb d i di) := by
  refine solid_keep h hown (fun x hx => setDinode_high hl hi _ (hl.data.trans hx)) fun j hj => ?_
  have hdin := dinode_setDinode sb d i di j
  unfold Keep
  by_cases hji : j = i
  · subst hji
    rw [hdin, if_pos rfl]
    exact hdi
  · rw [hdin, if_neg hji]
    exact Or.inr ⟨rfl, rfl, Iff.rfl⟩

theorem itrunc_solid (h : NoHoles sb d) (hown : Owned sb d (dinode sb d) All K)
    {r : Disk × Inode} (hr : Truncated sb d (dinode sb d) K ip r) : Solid sb d r.1 := by
  refine solid_keep h hown hr.high fun i hi => ?_
  unfold Keep
  by_cases hii : i = ip.inum
  · rw [hr.disk i hi, if_pos hii]
    exact Or.inl rfl
  · rw [hr.disk i hi, if_neg hii]
    exact Or.inr ⟨rfl, rfl, Iff.rfl⟩

theorem writei_solid (h : TableInv sb s) (hn : NoHoles sb s.disk) (ho : Open sb (dinode sb s.disk) ip)
    (src : Nat → Option UInt8) (off n : UInt32) :
    Safe OutOfBlocks (writei sb s.disk ip src off n) fun r => Solid sb s.disk r.2.1 := by
  by_cases hr : WriteRange ip off n
  · have hw : Wf sb s.disk := h.owned.wf h.layout hn
    refine (writei_spec hw ho hr).mono ?_
    rintro r ⟨tot, -, -, -, hwrote⟩
    refine ⟨hwrote.wf.filled, fun hfe i hi hty => ?_⟩
    by_cases hii : i = ip.inum
    · -- the inode that is written to is allocated
      have hcur := hwrote.cur
      rw [hii, ← hwrote.inum, hcur.cur] at hty
      exact absurd hty hcur.type
    · rw [(hwrote.others i hi hii).1] at hty ⊢
      exact hfe i hi hty
  · rw [writei_range hr]
    exact Safe.ok (Solid.refl hn)

/-- **Every call keeps files without holes.** -/
theorem istep_solid (h : TableInv sb s) (hn : NoHoles sb s.disk) (c : ICall) :
    Keeps (fun _ => True) (fun s' => Solid sb s.disk s'.disk) (istep sb s c) := by
  have hl := h.layout
  have hrefl := Solid.refl hn
  have hany : ∀ {E : String → Prop} (msg : String), E msg → True := fun _ _ => trivial
  cases c with
  | iget inum =>
    exact keeps_guard fun hi => run_keeps ((iget_keeps h hi).weaken hany) fun _ _ => hrefl
  | idup e =>
    exact keeps_guard fun _ => hrefl
  | ilock e =>
    refine keeps_guard fun href => run_keeps ((ilock_spec h href).weaken hany) fun s' hs => ?_
    rw [show (id s').disk = s.disk from hs.2]
    exact hrefl
  | iput e =>
    refine keeps_guard fun href => run_keeps (Q := fun s' => Solid sb s.disk s'.disk) ?_ fun _ hs => hs
    unfold iput
    by_cases hfree : (s.tab e).ref = 1 ∧ (s.tab e).valid = true ∧ (s.tab e).mem.nlink = 0
    · rw [if_pos hfree]
      have ho := h.isOpen href hfree.2.1
      have hf : Safe (fun _ => True) (ifree sb s e) fun s' => Solid sb s.disk s'.disk := by
        refine ((itrunc_spec hl h.owned ho).weaken hany).bind ?_
        rintro ⟨d, ip⟩ ht
        obtain rfl : ip = _ := ht.inode
        have hs₁ := itrunc_solid hn h.owned ht
        have hzero : ((emptied (s.tab e).mem).setType 0).size = 0 := rfl
        have hs₂ := solid_setDinode hl hs₁.noHoles (ht.sync hl) (h.lt e href) (Or.inl hzero)
        exact Safe.ok ⟨hs₂.noHoles, fun hfe => hs₂.freeEmpty (hs₁.freeEmpty hfe)⟩
      exact hf.bind fun s₁ hs₁ => Safe.ok hs₁
    · rw [if_neg hfree]
      exact Safe.ok hrefl
  | writei e src off n =>
    refine keeps_guard fun hguard => ?_
    obtain ⟨href, hv⟩ := hguard
    exact run_keeps ((writei_solid h hn (h.isOpen href hv) src off n).weaken hany) fun _ hs => hs
  | itrunc e =>
    refine keeps_guard fun hguard => ?_
    obtain ⟨href, hv⟩ := hguard
    exact run_keeps ((itrunc_spec hl h.owned (h.isOpen href hv)).weaken hany) fun r hr =>
      itrunc_solid hn h.owned hr
  | ialloc type =>
    refine keeps_guard fun hty => run_keeps (Q := fun s' => Solid sb s.disk s'.disk) ?_ fun _ hs => hs
    have ha : Safe (fun _ => True) (ialloc sb s.disk type) fun r =>
        Solid sb s.disk r.2 := by
      unfold ialloc
      rcases hi : freeInode sb s.disk with - | i
      · exact Safe.error trivial
      · exact Safe.ok (solid_setDinode hl hn h.owned (freeInode_spec hi).1 (Or.inl rfl))
    refine ha.bind ?_
    rintro ⟨inum, d⟩ hd
    exact ((Table.iget_spec s.tab inum).weaken hany).bind fun r _ => Safe.ok hd
  | update e major minor nlink =>
    refine keeps_guard fun hguard => ?_
    obtain ⟨href, hv⟩ := hguard
    have hset : ∀ di : DInode, di = (s.tab e).mem →
        Solid sb s.disk (setDinode sb s.disk (s.tab e).inum (di.setFields major minor nlink)) := by
      rintro di rfl
      refine solid_setDinode hl hn h.owned (h.lt e href) (Or.inr ?_)
      rw [← (h.cur e href hv).1]
      exact ⟨rfl, rfl, Iff.rfl⟩
    exact hset _ rfl

theorem solid_run (h : TableInv sb s) (hn : NoHoles sb s.disk) {cs : List ICall}
    (hr : Machine.Run (istep sb) s cs s') : TableInv sb s' ∧ Solid sb s.disk s'.disk := by
  refine hr.invariant (I := fun s' => TableInv sb s' ∧ Solid sb s.disk s'.disk) ?_
    ⟨h, Solid.refl hn⟩
  rintro s₁ c s₂ ⟨hi, hs⟩ hc
  have hk := istep_keeps hi c
  have hk' := istep_solid hi hs.noHoles c
  rw [hc] at hk hk'
  exact ⟨hk.1, hk'.noHoles, fun hf => hk'.freeEmpty (hs.freeEmpty hf)⟩

/-- An inode has a block for every index below its size, rounded up to blocks. -/
theorem Filled.block (h : Filled d di)
    (hbn : bn < (di.size.toNat + BSIZE - 1) / BSIZE) : bn < MAXFILE ∧ blockAt d di bn ≠ 0 := by
  have hpos : 0 < BSIZE := by decide
  have hlt : bn * BSIZE < di.size.toNat := by
    have hle := (Nat.le_div_iff_mul_le hpos).mp (Nat.succ_le_of_lt hbn)
    rw [Nat.succ_mul] at hle
    omega
  have hmap := h.mapped (bn * BSIZE) hlt
  rw [Nat.mul_div_cancel bn hpos] at hmap
  have hsize := h.size
  exact ⟨lt_of_mul_lt_mul_right (lt_of_lt_of_le hlt hsize) (Nat.zero_le _), hmap⟩

/-- **Files have no holes.**  From an image without holes, in every state that calls on the
inodes lead to, whatever their order and arguments: every allocated inode has a block address
for every block index below its size, on disk and in memory; inodes that are not allocated are
empty if they were so in the image; and `readi` through any valid entry, at any offset and for
any length, changes nothing and does the same whatever stands in the place of `balloc`. -/
theorem no_holes (h : TableInv sb s) (hn : NoHoles sb s.disk) {cs : List ICall} (hr : Machine.Run (istep sb) s cs s') :
    (∀ i, i < sb.ninodes → (dinode sb s'.disk i).type ≠ 0 →
      ∀ bn, bn < ((dinode sb s'.disk i).size.toNat + BSIZE - 1) / BSIZE →
        bn < MAXFILE ∧ blockAt s'.disk (dinode sb s'.disk i) bn ≠ 0) ∧
    (FreeEmpty sb s.disk → FreeEmpty sb s'.disk) ∧
    (∀ e, 0 < (s'.tab e).ref → (s'.tab e).valid = true →
      (∀ bn, bn < ((s'.tab e).mem.size.toNat + BSIZE - 1) / BSIZE →
        bn < MAXFILE ∧ blockAt s'.disk (s'.tab e).mem bn ≠ 0) ∧
      ∀ dst off n, ∃ ret bytes,
        readi sb s'.disk (s'.inode e) dst off n = .ok (ret, bytes, s'.disk, s'.inode e) ∧
        ∀ alloc, readiWith alloc s'.disk (s'.inode e) dst off n
          = .ok (ret, bytes, s'.disk, s'.inode e)) := by
  obtain ⟨hi, hs⟩ := solid_run h hn hr
  refine ⟨fun i hlt hty bn hbn => (hs.noHoles i hlt hty).block hbn, hs.freeEmpty, fun e href hv => ?_⟩
  obtain ⟨hmem, hty⟩ := hi.cur e href hv
  have hf : Filled s'.disk (s'.inode e).di := by
    show Filled s'.disk (s'.tab e).mem
    rw [hmem] at hty ⊢
    exact hs.noHoles _ (hi.lt e href) hty
  refine ⟨fun bn hbn => hf.block hbn, fun dst off n => ?_⟩
  obtain ⟨ret, bytes, hall⟩ := readi_pure hf dst off n
  exact ⟨ret, bytes, (readiWith_balloc _ _ _ _ _).symm.trans (hall _), hall⟩

theorem tiny_noHoles : NoHoles tinySb tinySys.disk := tiny_wf.filled

/-- The file is written to, and read in the state after that. -/
theorem no_holes_tiny :
    ∃ s', Machine.Run (istep tinySb) tinySys tinyCalls s' ∧
      ∀ i, i < tinySb.ninodes → (dinode tinySb s'.disk i).type ≠ 0 →
        ∀ bn, bn < ((dinode tinySb s'.disk i).size.toNat + BSIZE - 1) / BSIZE →
          bn < MAXFILE ∧ blockAt s'.disk (dinode tinySb s'.disk i) bn ≠ 0 := by
  obtain ⟨s', hr⟩ := tinyCalls_run
  exact ⟨s', hr, (no_holes tiny_tableInv tiny_noHoles hr).1⟩

end Xv6.Fs
