/-
Xv6/ShortWrite.lean

What a write that returns early leaves behind.

`writei` copies a chunk into the buffer of its block and logs the block when all of the
chunk was copied.  When a part of the chunk cannot be copied, `tot` does not count it, but
the bytes before the bad address are in the buffer.  As long as the block stays in the
cache `readi` returns them; when it is read from disk again they are gone (`reread`).

`whole` is what the call returns, and `Unmoved` the condition under which nothing beyond it
can be seen: what was copied in excess is what the file had there.
-/
import Xv6.FsRun
import Xv6.VmCopy

namespace Xv6.Fs

variable {sb : SuperBlock} {d d' : Disk} {ip ip' : Inode} {src : Nat → Option UInt8} {a m k : Nat}

/-! ### The user's memory -/

theorem copyin_get (src : Nat → Option UInt8) (hk : k < (copyin src a m).length) : src (a + k) = some ((copyin src a m).getD k 0) := by
  induction m generalizing a k with
  | zero => exact absurd hk (Nat.not_lt_zero k)
  | succ m ih =>
    rw [copyin] at hk ⊢
    rcases hs : src a with - | x <;> rw [hs] at hk
    · exact absurd hk (Nat.not_lt_zero k)
    cases k with
    | zero => exact hs
    | succ k =>
      rw [add_comm k 1, ← add_assoc, ih (Nat.lt_of_succ_lt_succ hk), add_comm 1 k]
      rfl

theorem copyin_stop (src : Nat → Option UInt8) (h : (copyin src a m).length < m) : src (a + (copyin src a m).length) = none := by
  induction m generalizing a with
  | zero => exact absurd h (Nat.not_lt_zero _)
  | succ m ih =>
    rw [copyin] at h ⊢
    rcases hs : src a with - | x <;> rw [hs] at h
    · exact hs
    · have hrest := ih (Nat.lt_of_succ_lt_succ h)
      rwa [add_assoc, add_comm 1] at hrest

/-- **The bytes that `either_copyin` gets from a user** are those that `copyin` finds with the page table. -/
theorem copyin_user (s : Vm.Ram) (pagetable va a m : Nat) (dst : Vm.Buf) :
    Vm.copyin s pagetable dst (va + a) m =
      (decide ((copyin (fun k => Vm.userByte s pagetable (va + k)) a m).length = m),
        dst.store 0 (copyin (fun k => Vm.userByte s pagetable (va + k)) a m)) := by
  obtain ⟨src, hsrc⟩ : ∃ src : Nat → Option UInt8, src = fun k => Vm.userByte s pagetable (va + k) := ⟨_, rfl⟩
  have hbyte : ∀ k, Vm.userByte s pagetable (va + a + k) = src (a + k) := fun k => by
    rw [hsrc, add_assoc]
  rw [← hsrc]
  obtain ⟨n, hext, hbytes⟩ : ∃ n, Vm.CopiedIn s pagetable dst 0 (va + a) m n (Vm.copyin s pagetable dst (va + a) m) :=
    Vm.copyinLoop_spec m le_rfl
  have hle := copyin_length_le src a m
  have hsome : ∀ k, (src (a + k)).isSome = (Vm.translate s pagetable (va + a + k)).isSome := fun k => by
    rw [← hbyte, Vm.isSome_userByte]
  have hn : n = (copyin src a m).length := by
    rcases lt_trichotomy n (copyin src a m).length with hlt | heq | hgt
    · have hok : (Vm.copyin s pagetable dst (va + a) m).1 = false := by
        rw [← Bool.not_eq_true]
        exact fun hok => absurd (hext.all hok) (by omega)
      have hs := hsome n
      rw [copyin_get src hlt, (hext.short hok).2.1] at hs
      cases hs
    · exact heq
    · have hext' := hext.le
      have hs := hsome (copyin src a m).length
      rw [copyin_stop src (by omega), hext.mapped _ hgt] at hs
      cases hs
  refine Prod.ext ?_ (funext fun j => ?_)
  · rw [Bool.eq_iff_iff, hext.ok_iff, decide_eq_true_iff]
    refine ⟨fun h => ?_, fun h k hk => ?_⟩
    · by_contra hne
      have hs := hsome (copyin src a m).length
      rw [copyin_stop src (by omega), h _ (by omega)] at hs
      cases hs
    · rw [← hsome, copyin_get src (m := m) (by omega)]
      rfl
  · rw [hbytes j, hn]
    show _ = if 0 ≤ j ∧ j < 0 + (copyin src a m).length then (copyin src a m).getD (j - 0) 0 else dst j
    by_cases hj : 0 ≤ j ∧ j < 0 + (copyin src a m).length
    · rw [if_pos hj, if_pos hj]
      show (Vm.userByte s pagetable (va + a + (j - 0))).getD 0 = _
      rw [hbyte, copyin_get src (m := m) (by omega)]
      rfl
    · rw [if_neg hj, if_neg hj]

/-! ### What the call returns -/

/-- The bytes that `writei` counts: those of the chunks that were copied whole. -/
def whole (src : Nat → Option UInt8) (off n : Nat) : Nat :=
  if (copyin src 0 n).length = n then n else (off + (copyin src 0 n).length) / BSIZE * BSIZE - off

theorem writeLoop_whole {off n : Nat} (fuel : Nat) {tot : Nat} (hfuel : n ≤ tot + fuel) (hn : tot ≤ n)
    (hlen : tot ≤ (copyin src 0 n).length) (hal : tot = 0 ∨ tot = n ∨ (off + tot) % BSIZE = 0) {r : Nat × Nat × Disk × Inode}
    (h : writeLoop sb src n fuel d ip tot (off + tot) = .ok r) : r.1 = whole src off n := by
  have hle := copyin_length_le src 0 n
  have hdone : ∀ tot, n ≤ tot → tot ≤ n → tot ≤ (copyin src 0 n).length → tot = whole src off n := fun tot h₁ h₂ h₃ => by
    rw [whole, if_pos (by omega)]
    omega
  induction fuel generalizing tot d ip with
  | zero =>
    obtain rfl := Except.ok.inj h
    exact hdone tot (by omega) hn hlen
  | succ fuel ih =>
    rw [writeLoop] at h
    by_cases hlt : tot < n
    · rw [if_pos hlt] at h
      rcases hb : bmap sb d ip ((off + tot) / BSIZE) with e | ⟨b, d₂, ip₂⟩ <;> rw [hb] at h
      · cases h
      have hmod : (off + tot) % BSIZE < BSIZE := Nat.mod_lt _ (by decide)
      obtain ⟨m, hm⟩ : ∃ m, m = min (n - tot) (BSIZE - (off + tot) % BSIZE) := ⟨_, rfl⟩
      have hchunk : copyin src tot m = ((copyin src 0 n).drop tot).take m := by
        rw [← copyin_drop src hlen, zero_add]
        exact copyin_take src tot (by omega)
      have hcl : (copyin src tot m).length = min m ((copyin src 0 n).length - tot) := by
        rw [hchunk, List.length_take, List.length_drop]
      replace h : (if (copyin src tot (min (n - tot) (BSIZE - (off + tot) % BSIZE))).length <
          min (n - tot) (BSIZE - (off + tot) % BSIZE) then _ else _) = _ := h
      rw [← hm] at h
      by_cases hshort : (copyin src tot m).length < m
      · rw [if_pos hshort] at h
        obtain rfl := Except.ok.inj h
        rw [whole, if_neg (by omega)]
        -- the first bad address is in the block of this chunk
        unfold BSIZE at *
        omega
      · rw [if_neg hshort, add_assoc] at h
        refine ih (by omega) (by omega) (by omega) ?_ h
        unfold BSIZE at *
        omega
    · rw [if_neg hlt] at h
      obtain rfl := Except.ok.inj h
      exact hdone tot (by omega) hn hlen

/-! ### What is read afterwards -/

/-- The byte that `readi` returns at a position of a file, where there is one. -/
def readByte (sb : SuperBlock) (d : Disk) (ip : Inode) (k : Nat) : Option UInt8 :=
  match readi sb d ip (fun _ => true) (UInt32.ofNat k) 1 with
  | .ok (_, out, _) => out[0]?
  | .error _ => none

/-- The blocks after some have left the cache: one that was not logged is then read from disk, where it is as before. -/
def reread (logged : List Nat) (evicted : Nat → Bool) (d d' : Disk) : Disk := fun b =>
  if evicted b = true ∧ b ∉ logged then d b else d' b

theorem reread_cases (logged : List Nat) (evicted : Nat → Bool) (d d' : Disk) (b : Nat) :
    reread logged evicted d d' b = d b ∨ reread logged evicted d d' b = d' b := by
  unfold reread
  split
  · exact .inl rfl
  · exact .inr rfl

theorem readByte_eq (hk : k < ip.di.size.toNat) (hmax : k < MAXFILE * BSIZE)
    (hmapped : ∀ j, j ≤ k → blockAt d ip.di (j / BSIZE) ≠ 0) : readByte sb d ip k = some (byteAt d ip.di k) := by
  have hk32 : (UInt32.ofNat k).toNat = k := UInt32.toNat_ofNat_of_lt' (hk.trans (UInt32.toNat_lt _))
  have hone : (1 : UInt32).toNat = 1 := rfl
  have hread : readi sb d ip (fun _ => true) (UInt32.ofNat k) 1 = _ :=
    readi_part (fun j hj => hmapped j (by rw [hk32, hone] at hj; omega)) (by rw [hk32, hone]; omega)
      (by rw [hk32, hone]; omega)
  rw [readByte, hread, hk32, hone]
  show (((content d ip.di).drop k).take 1)[0]? = _
  rw [List.getElem?_take_of_lt Nat.zero_lt_one, List.getElem?_drop, add_zero, content_getElem? hk]

/-- A block that the file has is the same in both views. -/
theorem blockAt_reread {logged : List Nat} {evicted : Nat → Bool} {bn : Nat}
    (hdirect : ∀ k, k < NDIRECT → ip.di.addr k ≠ 0 → ip'.di.addr k = ip.di.addr k)
    (hind : ip.di.addr NDIRECT ≠ 0 → ip'.di.addr NDIRECT = ip.di.addr NDIRECT)
    (hnew : blockAt d' ip'.di bn = blockAt d ip.di bn) (h0 : blockAt d ip.di bn ≠ 0) :
    blockAt (reread logged evicted d d') ip'.di bn = blockAt d ip.di bn := by
  unfold blockAt at *
  by_cases hbn : bn < NDIRECT
  · rw [if_pos hbn] at h0
    rw [if_pos hbn, if_pos hbn]
    exact hdirect bn hbn h0
  · rw [if_neg hbn] at hnew h0 ⊢
    rw [if_neg hbn] at hnew ⊢
    by_cases hz : ip.di.addr NDIRECT = 0
    · rw [if_pos hz] at h0
      exact absurd rfl h0
    rw [hind hz, if_neg hz, if_neg hz] at hnew
    rw [hind hz, if_neg hz, if_neg hz]
    rcases reread_cases logged evicted d d' (ip.di.addr NDIRECT) with he | he
    · rw [he]
    · rw [he, hnew]

/-- **What was copied in excess is what the file had there**: no byte of the chunk that failed differs from the old one,
as far as the file goes. -/
def Unmoved (sb : SuperBlock) (d : Disk) (ip : Inode) (src : Nat → Option UInt8) (off n : Nat) : Prop :=
  ∀ k, whole src off n ≤ k → k < (copyin src 0 n).length → off + k < ip.di.size.toNat → src k = readByte sb d ip (off + k)

/-- The bytes after a call of `writei`, in either view. -/
theorem readByte_after (hw : Wf sb d) (ho : Open sb (dinode sb d) ip) {off n : UInt32} (hr : WriteRange ip off n) {r : Int}
    (h : writei sb d ip src off n = .ok (r, d', ip')) (logged : List Nat) (evicted : Nat → Bool)
    (hk : k < ip.di.size.toNat) :
    readByte sb d ip k = some (byteAt d ip.di k) ∧
      readByte sb (reread logged evicted d d') ip' k =
        if reread logged evicted d d' (blockAt d ip.di (k / BSIZE)) = d' (blockAt d ip.di (k / BSIZE)) ∧ off.toNat ≤ k ∧
          k < off.toNat + (copyin src 0 n.toNat).length then src (k - off.toNat)
        else some (byteAt d ip.di k) := by
  have hf : Filled d ip.di := ho.cur ▸ hw.filled _ ho.lt (by rw [ho.cur]; exact ho.type)
  obtain ⟨tot, -, -, -, hwrote⟩ := (writei_spec hw ho hr).of_ok h
  have hset := (writei_owned hw.layout hw.owned ho src off n).of_ok h
  -- the slots of the file keep their blocks
  have hslot : ∀ t : Slot, t.Valid → t.val d ip.di ≠ 0 → t.val d' ip'.di = t.val d ip.di := fun t hv h0 => by
    obtain ⟨-, -, -, -, hval, -⟩ := hset.kept _ _ _ (ho.uses (L := All) hv trivial h0)
    rw [← hwrote.inum, hwrote.cur.cur] at hval
    exact hval
  have hblock : ∀ j, j < ip.di.size.toNat →
      blockAt (reread logged evicted d d') ip'.di (j / BSIZE) = blockAt d ip.di (j / BSIZE) := fun j hj => by
    have hj' : j / BSIZE < MAXFILE := div_lt_maxfile (hj.trans_le hf.size)
    refine blockAt_reread (fun i hi h0 => ?_) (hslot .indirect trivial) (hslot (.data (j / BSIZE)) hj' (hf.mapped j hj))
      (hf.mapped j hj)
    have hval : ∀ (d : Disk) (di : DInode), Slot.val d di (.data i) = di.addr i := fun d di => if_pos hi
    have hdata := hslot (.data i) (lt_of_lt_of_le hi (by decide))
    rw [hval, hval] at hdata
    exact hdata h0
  have hmax := hk.trans_le hf.size
  have hk' : k < ip'.di.size.toNat := by
    rw [hwrote.size]
    exact lt_max_of_lt_left hk
  refine ⟨readByte_eq hk hmax fun j hj => hf.mapped j (by omega), ?_⟩
  rw [readByte_eq hk' hmax fun j hj => by rw [hblock j (by omega)]; exact hf.mapped j (by omega)]
  have hview : byteAt (reread logged evicted d d') ip'.di k =
      (reread logged evicted d d' (blockAt d ip.di (k / BSIZE))).get (k % BSIZE) := by rw [byteAt, hblock k hk]
  have hnew : some ((d' (blockAt d ip.di (k / BSIZE))).get (k % BSIZE)) =
      if off.toNat ≤ k ∧ k < off.toNat + (copyin src 0 n.toNat).length then src (k - off.toNat)
      else some (byteAt d ip.di k) := by
    have hdata : blockAt d' ip'.di (k / BSIZE) = blockAt d ip.di (k / BSIZE) :=
      hslot (.data (k / BSIZE)) (div_lt_maxfile hmax) (hf.mapped k hk)
    have hoff : off.toNat ≤ (content d ip.di).length := by
      rw [content_length]
      exact hr.1
    have hcont := congrArg (fun l => l[k]?) hwrote.content
    rw [content_getElem? hk', List.getElem?_take_of_lt (lt_max_of_lt_left hk), getElem?_splice hoff, content_getElem? hk,
      byteAt, hdata] at hcont
    rw [hcont]
    refine ite_congr rfl (fun hin => ?_) fun _ => rfl
    have hget := copyin_get src (a := 0) (m := n.toNat) (k := k - off.toNat) (by omega)
    rw [zero_add] at hget
    rw [hget, List.getElem?_eq_getElem (by omega), List.getD_eq_getElem _ _ (by omega)]
  rw [hview]
  by_cases hnewest : reread logged evicted d d' (blockAt d ip.di (k / BSIZE)) = d' (blockAt d ip.di (k / BSIZE))
  · rw [hnewest, hnew]
    exact ite_congr (propext ⟨fun h => ⟨rfl, h⟩, And.right⟩) (fun _ => rfl) fun _ => rfl
  · rw [if_neg fun h => hnewest h.1, (reread_cases logged evicted d d' _).resolve_right hnewest]
    rfl

/-- **A short write can be seen beyond what it reports.**  A call that the range checks let through returns the bytes of the
chunks that were copied whole.  Every other byte of the file is read as before, from the cache and from disk, if and only
if what was copied of the next chunk is what the file had there. -/
theorem short_write_iff (hw : Wf sb d) (ho : Open sb (dinode sb d) ip) {off n : UInt32} (hr : WriteRange ip off n) {r : Int}
    (h : writei sb d ip src off n = .ok (r, d', ip')) :
    r = whole src off.toNat n.toNat ∧
    ((∀ (evicted : Nat → Bool) (k : Nat), k < ip.di.size.toNat → ¬ (off.toNat ≤ k ∧ (k : Int) < off.toNat + r) →
        readByte sb (reread (writeiLog sb d ip src off n) evicted d d') ip' k = readByte sb d ip k) ↔
      Unmoved sb d ip src off.toNat n.toNat) := by
  have hret : r = whole src off.toNat n.toNat := by
    rw [writei_eq hr] at h
    rcases hloop : writeLoop sb src n.toNat n.toNat d ip 0 off.toNat with e | x <;> rw [hloop] at h
    · cases h
    · have htot : x.1 = whole src off.toNat n.toNat := writeLoop_whole n.toNat (by omega) (Nat.zero_le _) (Nat.zero_le _) (.inl rfl) hloop
      rw [← htot]
      exact (congrArg Prod.fst (Except.ok.inj h)).symm
  have hafter := fun evicted k => readByte_after (k := k) hw ho hr h (writeiLog sb d ip src off n) evicted
  subst hret
  refine ⟨rfl, fun hall k hk₁ hk₂ hk₃ => ?_, fun hun evicted k hk hout => ?_⟩
  · -- nothing has left the cache
    have hsame := hall (fun _ => false) (off.toNat + k) hk₃ (by omega)
    rw [← hsame, (hafter (fun _ => false) (off.toNat + k) hk₃).2, if_pos ⟨rfl, by omega, by omega⟩, Nat.add_sub_cancel_left]
  · obtain ⟨hold, hnew⟩ := hafter evicted k hk
    rw [hnew, hold]
    split
    · rename_i hin
      have hu := hun (k - off.toNat) (by omega) (by omega) (by omega)
      rw [hu, Nat.add_sub_cancel' hin.2.1, hold]
    · rfl

/-- The tiny disk after three bytes were written to its file. -/
def threeBytes : Disk × Inode :=
  ((writei tinySb tinyDisk tinyFile (fun k => [1, 2, 3][k]?) 0 3).toOption.map Prod.snd).getD (tinyDisk, tinyFile)

theorem threeBytes_file : Wf tinySb threeBytes.1 ∧ Open tinySb (dinode tinySb threeBytes.1) threeBytes.2 ∧
    WriteRange threeBytes.2 0 2 := by
  have hne : ∀ msg, OutOfBlocks msg → writei tinySb tinyDisk tinyFile (fun k => [1, 2, 3][k]?) 0 3 ≠ .error msg := by
    rintro msg rfl
    exact tiny_writes
  obtain ⟨⟨r, d, ip⟩, hres, -, hwrote, -⟩ := (writei_list tiny_wf tiny_open
    ⟨by decide, by decide, by decide⟩ (show (3 : UInt32).toNat = [1, 2, 3].length from rfl) fun _ _ => rfl).exists_ok hne
  have hthree : threeBytes = (d, ip) := by
    rw [threeBytes, hres]
    rfl
  rw [hthree]
  exact ⟨hwrote.wf, hwrote.cur, Nat.zero_le _, by decide, by decide⟩

/-- Two bytes at the end of the last page that is mapped: the second one has no page. -/
def lastByte (k : Nat) : Option UInt8 := Vm.userByte Vm.selfMapped 10 (512 * Vm.PGSIZE - 1 + k)

/-- Nothing is counted, and a byte has changed. -/
theorem lastByte_writes : ∃ d' ip', writei tinySb threeBytes.1 threeBytes.2 lastByte 0 2 = .ok (0, d', ip') ∧
    readByte tinySb d' ip' 0 = some 0 := by
  have hrun : (writei tinySb threeBytes.1 threeBytes.2 lastByte 0 2).toOption.map
      (fun x => (x.1, readByte tinySb x.2.1 x.2.2 0)) = some (0, some 0) := by decide
  rcases hw : writei tinySb threeBytes.1 threeBytes.2 lastByte 0 2 with e | ⟨r, d', ip'⟩ <;> rw [hw] at hrun
  · cases hrun
  · have hpair := Option.some.inj hrun
    obtain rfl : r = 0 := (Prod.ext_iff.mp hpair).1
    exact ⟨d', ip', rfl, (Prod.ext_iff.mp hpair).2⟩

/-- The write returns 0, and the first byte of the file is no longer 1. -/
theorem short_write_seen : (Wf tinySb threeBytes.1 ∧ Open tinySb (dinode tinySb threeBytes.1) threeBytes.2 ∧
      WriteRange threeBytes.2 0 2) ∧
    ∃ d' ip', writei tinySb threeBytes.1 threeBytes.2 lastByte 0 2 = .ok (0, d', ip') ∧
      readByte tinySb threeBytes.1 threeBytes.2 0 = some 1 ∧ readByte tinySb d' ip' 0 = some 0 := by
  have hold : readByte tinySb threeBytes.1 threeBytes.2 0 = some 1 := by decide
  obtain ⟨d', ip', hw, hnew⟩ := lastByte_writes
  exact ⟨threeBytes_file, d', ip', hw, hold, hnew⟩

theorem short_write_iff_threeBytes : ∃ d' ip', writei tinySb threeBytes.1 threeBytes.2 lastByte 0 2 = .ok (0, d', ip') ∧
    ((∀ (evicted : Nat → Bool) (k : Nat), k < threeBytes.2.di.size.toNat → ¬ (0 ≤ k ∧ (k : Int) < 0) →
        readByte tinySb (reread (writeiLog tinySb threeBytes.1 threeBytes.2 lastByte 0 2) evicted threeBytes.1 d') ip' k
          = readByte tinySb threeBytes.1 threeBytes.2 k) ↔
      Unmoved tinySb threeBytes.1 threeBytes.2 lastByte 0 2) := by
  obtain ⟨d', ip', hw, -⟩ := lastByte_writes
  obtain ⟨hwf, hopen, hrange⟩ := threeBytes_file
  exact ⟨d', ip', hw, (short_write_iff hwf hopen hrange hw).2⟩

end Xv6.Fs
