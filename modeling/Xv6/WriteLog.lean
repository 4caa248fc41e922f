/-
Xv6/WriteLog.lean

How many blocks one chunk of a write logs.

`filewrite` cuts a write into chunks of three blocks, so that each fits into one operation of the
log.  A chunk that does not start at the beginning of a block touches four; but then the first of
them is not new, since files have no holes.  Every new block costs one block of the free map, and so does a new
indirect block.  That makes four blocks of the file, four of the free map, the indirect block and
the block of the inode, which is `MAXOPBLOCKS` however many blocks the free map has.
-/
import Xv6.FsRun

namespace Xv6.Fs

open Function List

variable {sb : SuperBlock} {d d' d₁ : Disk} {ip ip' ip₁ : Inode} {b bn k off n tot fuel : Nat} {bs : List Nat}

/-! ### One block -/

theorem ballocFrom_lt (h : ballocFrom sb d bs = .ok (b, d')) : b < sb.size := by
  induction bs with
  | nil => cases h
  | cons b₀ bs ih =>
    unfold ballocFrom at h
    dsimp only at h
    split at h
    · next bi hscan =>
        obtain ⟨rfl, -⟩ := Prod.mk.inj (Except.ok.inj h)
        have hbi := (scanFree_some hscan).1
        omega
    · exact ih h

theorem ballocLog_of_ok (h : balloc sb d = .ok (b, d')) : ballocLog sb d = [sb.bblock b, b] := by rw [ballocLog, h]

/-- Blocks of the free map. -/
def InMap (sb : SuperBlock) (c : List Nat) : Prop := ∀ y ∈ c, ∃ x < sb.size, y = sb.bblock x

theorem inMap_single (hb : b < sb.size) : InMap sb [sb.bblock b] := by
  rintro y hy
  exact ⟨b, hb, mem_singleton.mp hy⟩

/-- A new block is logged with its block of the free map. -/
theorem addrOrAllocLog_of_ok (hl : sb.Layout) (hk : k ≤ NDIRECT) (h : addrOrAlloc sb d ip k = .ok (b, d', ip')) :
    ip'.di.addr k = b ∧ ∃ c, InMap sb c ∧ c.length ≤ (if ip.di.addr k = 0 then 1 else 0) ∧
      ∀ y ∈ addrOrAllocLog sb d ip k, y ∈ c ∨ y = b := by
  unfold addrOrAlloc at h
  unfold addrOrAllocLog
  by_cases h0 : ip.di.addr k = 0
  · rw [if_pos h0] at h
    rw [if_pos h0, if_pos h0]
    rcases hb : balloc sb d with msg | ⟨b', d₁⟩ <;> rw [hb] at h
    · cases h
    obtain ⟨rfl, -, rfl⟩ : b' = b ∧ d₁ = d' ∧ ip.setAddr k b' = ip' := by simpa using Except.ok.inj h
    have hlt := ballocFrom_lt hb
    have hsize := hl.size
    refine ⟨(addr_setAddr ip.di (by omega) (by omega) k).trans (if_pos rfl), _, inMap_single hlt, le_rfl, ?_⟩
    rw [ballocLog_of_ok hb]
    simp
  · rw [if_neg h0] at h
    rw [if_neg h0, if_neg h0]
    obtain ⟨rfl, -, rfl⟩ : ip.di.addr k = b ∧ d = d' ∧ ip = ip' := by simpa using Except.ok.inj h
    exact ⟨rfl, [], by simp [InMap], le_rfl, by simp⟩

/-- 1 if there is no indirect block. -/
def missing (ip : Inode) : Nat := if ip.di.addr NDIRECT = 0 then 1 else 0

/-- **What `bmap` logs**: blocks of the free map, the block that it returns and the indirect block. -/
theorem bmapLog_of_ok (hl : sb.Layout) (h : bmap sb d ip bn = .ok (b, d', ip')) :
    ∃ c, InMap sb c ∧ c.length ≤ 1 + (if bn < NDIRECT then 0 else missing ip) ∧
      ∀ y ∈ bmapLog sb d ip bn, y ∈ c ∨ y = b ∨ ¬ bn < NDIRECT ∧ y = ip'.di.addr NDIRECT := by
  unfold bmap at h
  unfold bmapLog
  by_cases hd : bn < NDIRECT
  · rw [if_pos hd] at h
    rw [if_pos hd, if_pos hd]
    obtain ⟨-, c, hc, hlen, hlog⟩ := addrOrAllocLog_of_ok hl hd.le h
    refine ⟨c, hc, hlen.trans (by split <;> omega), fun y hy => (hlog y hy).imp id .inl⟩
  rw [if_neg hd] at h
  rw [if_neg hd, if_neg hd]
  by_cases hj : bn - NDIRECT < NINDIRECT
  · rw [if_pos hj] at h ⊢
    rcases ha : addrOrAlloc sb d ip NDIRECT with msg | ⟨ind, d₁, ip₁⟩ <;> rw [ha] at h
    · cases h
    obtain ⟨hind, c, hc, hlen, hlog⟩ := addrOrAllocLog_of_ok hl le_rfl ha
    simp only [bind, Except.bind] at h
    dsimp only
    by_cases hw : word (d₁ ind) (bn - NDIRECT) = 0
    · rw [if_pos hw] at h
      rw [if_pos hw]
      rcases hb : balloc sb d₁ with msg | ⟨b', d₂⟩ <;> rw [hb] at h
      · cases h
      obtain ⟨rfl, -, rfl⟩ : b' = b ∧ _ = d' ∧ ip₁ = ip' := by simpa using Except.ok.inj h
      refine ⟨sb.bblock b' :: c, ?_, ?_, fun y hy => ?_⟩
      · exact forall_mem_cons.mpr ⟨⟨b', ballocFrom_lt hb, rfl⟩, hc⟩
      · rw [length_cons, missing]
        omega
      rw [ballocLog_of_ok hb] at hy
      rcases mem_append.mp hy with hy | hy
      · exact (hlog y hy).imp (mem_cons_of_mem _) fun hy => .inr ⟨hd, hy.trans hind.symm⟩
      · simp only [cons_append, nil_append, mem_cons, not_mem_nil, or_false] at hy
        rw [hind, mem_cons]
        tauto
    · rw [if_neg hw] at h
      rw [if_neg hw, append_nil]
      obtain ⟨-, -, rfl⟩ : _ = b ∧ d₁ = d' ∧ ip₁ = ip' := by simpa using Except.ok.inj h
      refine ⟨c, hc, ?_, fun y hy => (hlog y hy).imp id fun hy => .inr ⟨hd, hy.trans hind.symm⟩⟩
      rw [missing]
      omega
  · rw [if_neg hj] at h
    cases h

/-- So many blocks, and the indirect block. -/
def Covers (ip : Inode) (m : Nat) (log : List Nat) : Prop :=
  ∃ (c : List Nat) (ind : Nat), c.length ≤ m ∧ (ip.di.addr NDIRECT ≠ 0 → ind = ip.di.addr NDIRECT) ∧
    ∀ y ∈ log, y ∈ c ∨ y = ind

theorem Covers.nil (ip : Inode) (m : Nat) : Covers ip m [] := ⟨[], _, Nat.zero_le _, fun _ => rfl, by simp⟩

/-- If there is no block left then `bmap` may have got an indirect block. -/
theorem bmapLog_of_error (hl : sb.Layout) {msg : String} (h : bmap sb d ip bn = .error msg) :
    Covers ip 1 (bmapLog sb d ip bn) := by
  have haddr : ∀ k msg, addrOrAlloc sb d ip k = .error msg → addrOrAllocLog sb d ip k = [] := by
    intro k msg hk
    unfold addrOrAlloc at hk
    rw [addrOrAllocLog, ballocLog]
    by_cases h0 : ip.di.addr k = 0
    · rw [if_pos h0] at hk ⊢
      rcases hb : balloc sb d with msg | ⟨b', d₁⟩ <;> rw [hb] at hk
      cases hk
    · rw [if_neg h0]
  unfold bmap at h
  unfold bmapLog
  by_cases hd : bn < NDIRECT
  · rw [if_pos hd] at h ⊢
    rw [haddr _ _ h]
    exact .nil ..
  rw [if_neg hd] at h ⊢
  by_cases hj : bn - NDIRECT < NINDIRECT
  · rw [if_pos hj] at h ⊢
    rcases ha : addrOrAlloc sb d ip NDIRECT with msg | ⟨ind, d₁, ip₁⟩ <;> rw [ha] at h
    · rw [haddr _ _ ha]
      exact .nil ..
    obtain ⟨-, c, -, hlen, hlog⟩ := addrOrAllocLog_of_ok hl le_rfl ha
    refine ⟨c, ind, hlen.trans (by split <;> omega), fun h0 => ?_, fun y hy => ?_⟩
    · rw [addrOrAlloc_old h0] at ha
      exact (Prod.mk.inj (Except.ok.inj ha)).1.symm
    simp only [bind, Except.bind] at h
    rcases mem_append.mp hy with hy | hy
    · exact hlog y hy
    dsimp only at hy
    split at hy
    · rename_i hw
      rw [if_pos hw] at h
      rcases hb : balloc sb d₁ with msg | ⟨b', d₂⟩ <;> rw [hb] at h
      · rw [ballocLog, hb] at hy
        exact .inr (mem_singleton.mp hy)
      · cases h
    · cases hy
  · rw [if_neg hj]
    exact .nil ..

/-! ### The loop -/

section Loop

variable {ino : Nat → DInode} {K : Nat → Prop} {src : Nat → Option UInt8} {ip₂ : Inode} {d₂ : Disk}

/-- An indirect block stays. -/
theorem Took.indirect {s : Slot} (ht : Took sb d ino K ip s (b, d', ip')) (ho : Open sb ino ip)
    (h0 : ip.di.addr NDIRECT ≠ 0) : ip'.di.addr NDIRECT = ip.di.addr NDIRECT := by
  obtain ⟨-, -, -, -, -, hval, -⟩ := ht.kept ip.inum .indirect _ (ho.uses trivial trivial h0)
  rw [← ht.inum, withInode_self] at hval
  exact hval

/-- A block of the file, and what comes after it. -/
theorem Covers.step {m m' : Nat} {log log₁ rest c : List Nat} (h : Covers ip₂ m log)
    (hkeep : ip₁.di.addr NDIRECT ≠ 0 → ip₂.di.addr NDIRECT = ip₁.di.addr NDIRECT)
    (hlog : ∀ y ∈ log₁, y ∈ c ∨ y = b ∨ ip₂.di.addr NDIRECT ≠ 0 ∧ y = ip₂.di.addr NDIRECT)
    (hrest : ∀ y ∈ rest, y = b ∨ y ∈ log) (hm : c.length + 1 + m ≤ m') : Covers ip₁ m' (log₁ ++ rest) := by
  obtain ⟨c₂, ind, hc₂, hind, hlog₂⟩ := h
  refine ⟨b :: (c ++ c₂), ind, ?_, fun h0 => ?_, fun y hy => ?_⟩
  · rw [length_cons, length_append]
    omega
  · exact (hind (by rwa [hkeep h0])).trans (hkeep h0)
  rw [mem_cons, mem_append]
  rcases mem_append.mp hy with hy | hy
  · rcases hlog y hy with hy | hy | ⟨h0, hy⟩
    · exact .inl (.inr (.inl hy))
    · exact .inl (.inl hy)
    · exact .inr (hy.trans (hind h0).symm)
  · rcases hrest y hy with hy | hy
    · exact .inl (.inl hy)
    · exact (hlog₂ y hy).imp (fun hy => .inr (.inr hy)) id

theorem next_block {x m : Nat} (hm : m = min (n - tot) (BSIZE - x % BSIZE)) (h : tot + m < n) :
    (x + m) / BSIZE = x / BSIZE + 1 := by
  unfold BSIZE at *
  omega

/-- **The loop of `writei`** logs at most two blocks for each block of the file. -/
theorem writeLoopLog_covers (hl : sb.Layout) (ho : Open sb ino ip) (hmax : off + n ≤ MAXFILE * BSIZE)
    (h : Stored sb d ino K ip d₁ ip₁) (hk : tot < n → off + n ≤ ((off + tot) / BSIZE + k) * BSIZE) :
    Covers ip₁ (2 * k + missing ip₁) (writeLoopLog sb src n fuel d₁ ip₁ tot (off + tot)) := by
  induction fuel generalizing tot d₁ ip₁ k with
  | zero => exact .nil ..
  | succ fuel ih =>
    rw [writeLoopLog]
    by_cases hlt : tot < n
    · have hbn : (off + tot) / BSIZE < MAXFILE := div_lt_maxfile (by omega)
      have hk' := hk hlt
      obtain ⟨k, rfl⟩ : ∃ j, k = j + 1 := by
        refine Nat.exists_eq_succ_of_ne_zero ?_
        rintro rfl
        have := Nat.div_mul_le_self (off + tot) BSIZE
        rw [add_zero] at hk'
        omega
      rw [if_pos hlt]
      rcases hb : bmap sb d₁ ip₁ ((off + tot) / BSIZE) with msg | ⟨b, d₂, ip₂⟩
      · obtain ⟨c, ind, hc, hind, hlog⟩ := bmapLog_of_error hl hb
        exact ⟨c, ind, by omega, hind, by simpa using hlog⟩
      have ht := (bmap_spec hl h.owned (h.isOpen ho) hbn).of_ok hb
      have hkeep := ht.indirect (h.isOpen ho)
      obtain ⟨c, -, hc, hlog⟩ := bmapLog_of_ok hl hb
      have hind : ¬ (off + tot) / BSIZE < NDIRECT → ip₂.di.addr NDIRECT ≠ 0 := by
        intro hd h0
        have hval : blockAt d₂ ip₂.di ((off + tot) / BSIZE) = b := ht.val
        rw [blockAt, if_neg hd, if_pos h0] at hval
        exact ht.ne hval.symm
      have hmissing : (if (off + tot) / BSIZE < NDIRECT then 0 else missing ip₁) + missing ip₂ ≤ missing ip₁ := by
        unfold missing
        by_cases hd : (off + tot) / BSIZE < NDIRECT
        · rw [if_pos hd]
          by_cases h0 : ip₁.di.addr NDIRECT = 0
          · split <;> omega
          · rw [if_neg h0, if_neg (by rwa [hkeep h0])]
        · rw [if_neg hd, if_neg (hind hd), add_zero]
      obtain ⟨m, hm⟩ : ∃ m, m = min (n - tot) (BSIZE - (off + tot) % BSIZE) := ⟨_, rfl⟩
      dsimp only
      rw [← hm]
      split
      · exact (Covers.nil ip₂ (2 * k + missing ip₂)).step hkeep
          (fun y hy => (hlog y hy).imp id (Or.imp id fun hy => ⟨hind hy.1, hy.2⟩)) (by simp) (by omega)
      rw [add_assoc]
      refine (ih (h.chunk hl ho hbn ht _) (k := k) fun hn => ?_).step hkeep
        (fun y hy => (hlog y hy).imp id (Or.imp id fun hy => ⟨hind hy.1, hy.2⟩)) (fun y hy => mem_cons.mp hy) (by omega)
      rw [← add_assoc, next_block hm hn, add_assoc, add_comm 1]
      exact hk'
    · rw [if_neg hlt]
      exact .nil ..

theorem missing_le (ip : Inode) : missing ip ≤ 1 := by
  unfold missing
  split <;> omega

/-- Three blocks of data.  If they lie in four blocks of the file then the first one is not new. -/
theorem chunkLog_covers (hw : Wf sb d) (ho : Open sb (dinode sb d) ip) (hoff : off ≤ ip.di.size.toNat)
    (hn : n ≤ 3 * BSIZE) (hmax : off + n ≤ MAXFILE * BSIZE) : Covers ip 8 (writeLoopLog sb src n n d ip 0 off) := by
  have hstored := Stored.refl hw.owned ho
  have hmissing := missing_le ip
  have hdiv := Nat.div_add_mod' off BSIZE
  by_cases hal : off % BSIZE = 0
  · obtain ⟨c, ind, hc, hlog⟩ : Covers ip (2 * 3 + missing ip) (writeLoopLog sb src n n d ip 0 (off + 0)) :=
      writeLoopLog_covers hw.layout ho hmax hstored fun _ => by rw [add_zero, add_mul]; omega
    exact ⟨c, ind, by omega, hlog⟩
  cases n with
  | zero => exact .nil ..
  | succ n =>
    have hmod := Nat.mod_lt off (show 0 < BSIZE by decide)
    have hf := hw.filled ip.inum ho.lt (by rw [ho.cur]; exact ho.type)
    have h0 : blockAt d ip.di (off / BSIZE) ≠ 0 := by
      have hmapped := hf.mapped (off - 1) (by rw [ho.cur]; omega)
      rwa [ho.cur, show (off - 1) / BSIZE = off / BSIZE by unfold BSIZE at *; omega] at hmapped
    have hbn : off / BSIZE < MAXFILE := div_lt_maxfile (by omega)
    have ht := (bmap_spec hw.layout hw.owned ho hbn).of_ok (bmap_old hbn h0)
    rw [writeLoopLog, if_pos (Nat.succ_pos n), bmapLog_old hbn h0, bmap_old hbn h0]
    dsimp only
    split
    · exact .nil ..
    rw [zero_add]
    refine Covers.step (c := []) (writeLoopLog_covers hw.layout ho hmax
      (hstored.chunk hw.layout ho hbn (by rwa [ho.withInode]) _) (k := 3) fun hlt => ?_) (fun _ => rfl) nofun
      (fun y hy => mem_cons.mp hy) (by simp; omega)
    rw [next_block rfl ((zero_add _).trans_lt hlt), add_mul, add_mul]
    omega

end Loop

/-- **A chunk of `filewrite` fits into one operation**, in a file system without holes, however large its free map. -/
theorem chunk_fits (hw : Wf sb d) (ho : Open sb (dinode sb d) ip) (src : Nat → Option UInt8) {off n : UInt32}
    (hn : n.toNat ≤ (MAXOPBLOCKS - 1 - 1 - 2) / 2 * BSIZE) :
    (writeiLog sb d ip src off n).toFinset.card ≤ MAXOPBLOCKS := by
  unfold writeiLog
  split
  · exact Nat.zero_le _
  next hr =>
    rw [not_or, gt_iff_lt, UInt32.lt_iff_toNat_lt, add_lt_self_iff] at hr
    split
    · exact Nat.zero_le _
    next hmax =>
      rw [UInt32.toNat_add, Nat.mod_eq_of_lt (by omega)] at hmax
      obtain ⟨c, ind, hc, -, hlog⟩ : Covers ip 8 (writeLoopLog sb src n.toNat n.toNat d ip 0 off.toNat) :=
        chunkLog_covers hw ho (by omega) hn (by omega)
      have hsub : (writeLoopLog sb src n.toNat n.toNat d ip 0 off.toNat ++ iupdateLog sb ip).toFinset ⊆
          (sb.iblock ip.inum :: ind :: c).toFinset := by
        intro y hy
        rw [mem_toFinset, mem_cons, mem_cons]
        rcases mem_append.mp (mem_toFinset.mp hy) with hy | hy
        · exact .inr ((hlog y hy).symm)
        · exact .inl (mem_singleton.mp hy)
      calc _ ≤ (sb.iblock ip.inum :: ind :: c).toFinset.card := Finset.card_le_card hsub
        _ ≤ (sb.iblock ip.inum :: ind :: c).length := toFinset_card_le _
        _ ≤ MAXOPBLOCKS := Nat.add_le_add_right hc 2

/-- A file gets its first three bytes. -/
theorem chunk_fits_tiny : (writeiLog tinySb tinyDisk tinyFile (fun k => [1, 2, 3][k]?) 0 3).toFinset.card ≤ MAXOPBLOCKS :=
  chunk_fits tiny_wf tiny_open _ (by decide)

end Xv6.Fs
