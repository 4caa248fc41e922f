/-
Xv6/FileContent.lean

A file is a list of bytes.

`content` are the bytes of an inode below its size, reached through its block
numbers.  The state of a file system is well formed (`Wf`) when every block
that a slot refers to is marked, belongs to that slot alone, and there are no
holes below the size of a file.  On such a state `writei` replaces a part of
the content (`splice`), `readi` returns a part of it, and neither touches
another file.

The loop of `writei` keeps `WriteInv`: how many bytes are stored, that the
blocks below are mapped, and what every byte of the file is.  A copy from the
caller's memory that fails leaves the bytes that were copied before it failed;
the invariant counts them (`len`) apart from the bytes that the size covers
(`tot`).
-/
import Xv6.FsMap

namespace Xv6.Fs

open Function List UInt32

variable {sb : SuperBlock} {d d' d₁ d₂ : Disk} {ino : Nat → DInode} {K : Nat → Prop} {ip ip' ip₁ ip₂ : Inode}

/-! ### Content -/

/-- Byte `k` of a file. -/
def byteAt (d : Disk) (di : DInode) (k : Nat) : UInt8 :=
  (d (blockAt d di (k / BSIZE))).get (k % BSIZE)

/-- The bytes of a file. -/
def content (d : Disk) (di : DInode) : List UInt8 := (range di.size.toNat).map (byteAt d di)

/-- The blocks below the size of a file are allocated. -/
structure Filled (d : Disk) (di : DInode) : Prop where
  size : di.size.toNat ≤ MAXFILE * BSIZE
  mapped : ∀ k, k < di.size.toNat → blockAt d di (k / BSIZE) ≠ 0

variable {k m a t i bn b j o off tot : Nat}

/-- Block `k / BSIZE` of a file that can have byte `k`. -/
theorem div_lt_maxfile (h : k < MAXFILE * BSIZE) : k / BSIZE < MAXFILE :=
  Nat.div_lt_of_lt_mul (by rw [mul_comm]; exact h)

@[simp] theorem content_length (d : Disk) (di : DInode) : (content d di).length = di.size.toNat := by
  rw [content, length_map, length_range]

variable {di di' : DInode}

theorem content_getElem? (hk : k < di.size.toNat) : (content d di)[k]? = some (byteAt d di k) := by
  rw [content, getElem?_map, getElem?_range hk]
  rfl

/-- Two files of one size with the same bytes have the same content. -/
theorem content_congr (hsize : di'.size = di.size)
    (h : ∀ k, k < di.size.toNat → byteAt d' di' k = byteAt d di k) : content d' di' = content d di := by
  unfold content
  rw [hsize]
  exact map_congr_left fun k hk => h k (mem_range.mp hk)

theorem blockAt_congr (h : di.addr NDIRECT ≠ 0 → d' (di.addr NDIRECT) = d (di.addr NDIRECT))
    (bn : Nat) : blockAt d' di bn = blockAt d di bn :=
  Slot.val_congr h (.data bn)

/-- A byte of a file, when its block and the indirect block are as before. -/
theorem byteAt_congr
    (h : di.addr NDIRECT ≠ 0 → d' (di.addr NDIRECT) = d (di.addr NDIRECT))
    (hb : d' (blockAt d di (k / BSIZE)) = d (blockAt d di (k / BSIZE))) :
    byteAt d' di k = byteAt d di k := by
  unfold byteAt
  rw [blockAt_congr h, hb]

/-! ### The caller's memory -/

section

variable (src : Nat → Option UInt8)

include src

theorem copyin_length_le (a m : Nat) : (copyin src a m).length ≤ m := by
  induction m generalizing a with
  | zero => exact le_refl 0
  | succ m ih =>
    rw [copyin]
    split
    · exact Nat.succ_le_succ (ih (a + 1))
    · exact Nat.zero_le _

/-- Fewer bytes from the same address. -/
theorem copyin_take (a : Nat) {m' : Nat} (h : m ≤ m') : copyin src a m = (copyin src a m').take m := by
  induction m' generalizing a m with
  | zero =>
    obtain rfl : m = 0 := Nat.le_zero.mp h
    rfl
  | succ m' ih =>
    cases m with
    | zero => rfl
    | succ m =>
      rw [copyin, copyin]
      rcases src a with - | x
      · rfl
      · exact congrArg (x :: ·) (ih (a + 1) (Nat.le_of_succ_le_succ h))

/-- The bytes from an address that the copy reaches. -/
theorem copyin_drop {n : Nat} (h : t ≤ (copyin src a n).length) :
    copyin src (a + t) (n - t) = (copyin src a n).drop t := by
  induction t generalizing a n with
  | zero => rfl
  | succ t ih =>
    cases n with
    | zero => exact absurd h (Nat.not_succ_le_zero t)
    | succ n =>
      rw [copyin] at h ⊢
      rcases hs : src a with - | x <;> rw [hs] at h
      · exact absurd h (Nat.not_succ_le_zero t)
      · rw [drop_succ_cons, ← ih (Nat.le_of_succ_le_succ h), Nat.succ_sub_succ,
          add_assoc, add_comm 1 t]

end

variable {src : Nat → Option UInt8} {data l : List UInt8}

theorem copyin_eq
    (h : ∀ k, k < data.length → src (a + k) = data[k]?) : copyin src a data.length = data := by
  induction data generalizing a with
  | nil => rfl
  | cons x data ih =>
    have hx : src a = some x := h 0 (Nat.succ_pos _)
    rw [length_cons, copyin, hx]
    refine congrArg (x :: ·) (ih fun k hk => ?_)
    rw [add_assoc, add_comm 1 k, h (k + 1) (Nat.succ_lt_succ hk)]
    rfl

/-! ### Storing into a file -/

/-- Storing into a block of a file changes no slot: an indirect block is not a block of
a file. -/
theorem val_store (h : Owned sb d ino All K) (hu : Uses sb d ino All i (.data bn) b)
    (blk : Block) (hj : j < sb.ninodes) (hty : (ino j).type ≠ 0) (t : Slot) :
    t.val (update d b blk) (ino j) = t.val d (ino j) := by
  refine Slot.val_congr (fun h0 => update_of_ne (fun hc => ?_) _ _) t
  have hind : Uses sb d ino All j .indirect b := ⟨hj, hty, trivial, trivial, hc, hc ▸ h0⟩
  cases (h.inj _ _ _ _ _ hu hind).2

theorem uses_store (h : Owned sb d ino All K) (hu : Uses sb d ino All i (.data bn) b)
    (blk : Block) (j : Nat) (t : Slot) (c : Nat) :
    Uses sb (update d b blk) ino All j t c ↔ Uses sb d ino All j t c := by
  constructor
  · rintro ⟨hj, hty, hv, -, hc, h0⟩
    exact ⟨hj, hty, hv, trivial, (val_store h hu blk hj hty t).symm.trans hc, h0⟩
  · rintro ⟨hj, hty, hv, -, hc, h0⟩
    exact ⟨hj, hty, hv, trivial, (val_store h hu blk hj hty t).trans hc, h0⟩

theorem Owned.store (hl : sb.Layout) (h : Owned sb d ino All K)
    (hu : Uses sb d ino All i (.data bn) b) (blk : Block) : Owned sb (update d b blk) ino All K := by
  have hb := h.data _ _ _ hu
  refine h.congr (fun x hx => bitAt_congr (fun y hy => ?_) hx) (uses_store h hu blk)
  have hmap := hl.bitmap y hy
  exact update_of_ne (by omega) _ _

theorem blockAt_store (h : Owned sb d ino All K) (ho : Open sb ino ip)
    (hu : Uses sb d ino All i (.data bn) b) (blk : Block) (bn' : Nat) :
    blockAt (update d b blk) ip.di bn' = blockAt d ip.di bn' := by
  have hv := val_store h hu blk ho.lt (by rw [ho.cur]; exact ho.type) (.data bn')
  rw [ho.cur] at hv
  exact hv

/-- The bytes of a file after a chunk was stored at `o`, inside one block. -/
theorem byteAt_store (h : Owned sb d ino All K) (ho : Open sb ino ip) {chunk : List UInt8}
    (hu : Uses sb d ino All ip.inum (.data (o / BSIZE)) b) (hfit : o % BSIZE + chunk.length ≤ BSIZE)
    (hk : k / BSIZE < MAXFILE) (h0 : blockAt d ip.di (k / BSIZE) ≠ 0) :
    byteAt (update d b ((d b).patch (o % BSIZE) chunk)) ip.di k
      = if o ≤ k ∧ k < o + chunk.length then chunk.getD (k - o) 0 else byteAt d ip.di k := by
  have hdo := Nat.div_add_mod o BSIZE
  have hdk := Nat.div_add_mod k BSIZE
  have hmod : k % BSIZE < BSIZE := Nat.mod_lt k (by decide)
  have hcur : blockAt d ip.di (o / BSIZE) = b := by
    have hval := hu.2.2.2.2.1
    rw [ho.cur] at hval
    exact hval
  unfold byteAt
  rw [blockAt_store h ho hu]
  by_cases hkb : k / BSIZE = o / BSIZE
  · rw [hkb] at hdk
    rw [hkb, hcur, update_self, Bytes.get_patch _ _ _ hmod]
    refine ite_congr (propext (by omega)) (fun _ => ?_) fun _ => rfl
    congr 1
    omega
  · -- another block, so not in the range of the chunk
    rw [update_of_ne, if_neg]
    · rintro ⟨hle, hlt⟩
      refine hkb (Nat.div_eq_of_lt_le ?_ ?_)
      · rw [mul_comm]
        omega
      · rw [add_mul, mul_comm]
        omega
    · intro hb
      have hu' : Uses sb d ino All ip.inum (.data (k / BSIZE)) b := hb ▸ ho.uses hk trivial h0
      exact hkb (Slot.data.inj (h.inj _ _ _ _ _ hu' hu).2)

variable {r : Nat × Disk × Inode}

section

variable (h : Took sb d ino K ip (.data bn) r)

include h

/-- The block that `bmap` returned belongs to the file. -/
theorem Took.uses (ho : Open sb ino ip) (hbn : bn < MAXFILE) :
    Uses sb r.2.1 (withInode ino r.2.2) All r.2.2.inum (.data bn) r.1 := by
  have hb : Fs.blockAt r.2.1 r.2.2.di bn = r.1 := h.val
  exact hb ▸ (h.isOpen ho).uses hbn trivial (hb.trans_ne h.ne)

/-- `bmap` moves and changes no block that the file has. -/
theorem Took.blockAt {bn' : Nat}
    (hbn : bn' < MAXFILE) (h0 : blockAt d ip.di bn' ≠ 0) : blockAt r.2.1 r.2.2.di bn' = blockAt d ip.di bn' := by
  rcases eq_or_ne bn' bn with rfl | he
  · rw [h.old h0]
  · exact h.others bn' hbn fun hs => he (Slot.data.inj hs)

theorem Took.byteAt (ho : Open sb ino ip) (hk : k / BSIZE < MAXFILE) (h0 : Fs.blockAt d ip.di (k / BSIZE) ≠ 0) :
    byteAt r.2.1 r.2.2.di k = byteAt d ip.di k := by
  unfold Fs.byteAt
  rw [h.blockAt hk h0]
  have hu : Uses sb d ino All ip.inum (.data (k / BSIZE)) _ := ho.uses hk trivial h0
  exact congrArg (fun blk => Bytes.get blk _) ((h.kept _ _ _ hu).1 (by simp))

end

/-- The disk and the inode after stores into the file: ownership, and what stays. -/
structure Stored (sb : SuperBlock) (d : Disk) (ino : Nat → DInode) (K : Nat → Prop) (ip : Inode)
    (d' : Disk) (ip' : Inode) : Prop where
  owned : Owned sb d' (withInode ino ip') All K
  inum : ip'.inum = ip.inum
  attrs : ip'.di.attrs = ip.di.attrs
  low : ∀ x, x < sb.bmapstart → d' x = d x
  kept : ∀ i t c, Uses sb d ino All i t c →
    (i ≠ ip.inum → d' c = d c) ∧ Uses sb d' (withInode ino ip') All i t c

theorem Stored.refl (h : Owned sb d ino All K) (ho : Open sb ino ip) : Stored sb d ino K ip d ip :=
  ⟨by rw [ho.withInode]; exact h, rfl, rfl, fun _ _ => rfl,
    fun _ _ _ hu => ⟨fun _ => rfl, by rw [ho.withInode]; exact hu⟩⟩

theorem Stored.isOpen (h : Stored sb d ino K ip d' ip') (ho : Open sb ino ip) : Open sb (withInode ino ip') ip' := by
  refine ⟨?_, ?_, withInode_self _ _⟩
  · rw [h.inum]
    exact ho.lt
  · rw [type_of_attrs h.attrs]
    exact ho.type

/-- A block of the file is mapped and something is stored in it. -/
theorem Stored.chunk (hl : sb.Layout) (ho : Open sb ino ip) (h : Stored sb d ino K ip d₁ ip₁)
    (hbn : bn < MAXFILE) (ht : Took sb d₁ (withInode ino ip₁) K ip₁ (.data bn) (b, d₂, ip₂)) (blk : Block) :
    Stored sb d ino K ip (update d₂ b blk) ip₂ := by
  have hw : withInode (withInode ino ip₁) ip₂ = withInode ino ip₂ := withInode_withInode ino ht.inum
  have hinum : ip₂.inum = ip.inum := ht.inum.trans h.inum
  have hu := ht.uses (h.isOpen ho) hbn
  refine ⟨?_, hinum, ht.attrs.trans h.attrs, fun x hx => ?_, fun i t c hut => ?_⟩
  · rw [← hw]
    exact ht.owned.store hl hu _
  · have hdata := (ht.owned.data _ _ _ hu).1
    have hlow := hl.data
    rw [update_of_ne (by omega)]
    exact (ht.low x hx).trans (h.low x hx)
  · obtain ⟨hc₁, hu₁⟩ := h.kept i t c hut
    obtain ⟨hc₂, hu₂⟩ := ht.kept i t c hu₁
    refine ⟨fun hi => ?_, ?_⟩
    · rw [update_of_ne]
      · exact (hc₂ fun he => hi (he.1.trans h.inum)).trans (hc₁ hi)
      · rintro rfl
        exact hi ((ht.owned.inj _ _ _ _ _ hu₂ hu).1.trans hinum)
    · rw [← hw]
      exact (uses_store ht.owned hu _ i t c).mpr hu₂

/-- What holds of the disk and the inode after `len` bytes of `data` were stored from
`off` on, where the size will cover the first `tot` of them. -/
structure WriteInv (sb : SuperBlock) (d : Disk) (ino : Nat → DInode) (K : Nat → Prop) (ip : Inode)
    (off : Nat) (data : List UInt8) (tot len : Nat) (d' : Disk) (ip' : Inode) : Prop
    extends Stored sb d ino K ip d' ip' where
  le : tot ≤ len
  mapped : ∀ k, k < max ip.di.size.toNat (off + tot) → blockAt d' ip'.di (k / BSIZE) ≠ 0
  bytes : ∀ k, k < max ip.di.size.toNat (off + tot) →
    byteAt d' ip'.di k = if off ≤ k ∧ k < off + len then data.getD (k - off) 0 else byteAt d ip.di k

theorem writeInv_init (h : Owned sb d ino All K) (ho : Open sb ino ip) (hf : Filled d ip.di)
    (hoff : off ≤ ip.di.size.toNat) (data : List UInt8) : WriteInv sb d ino K ip off data 0 0 d ip := by
  have hmax : max ip.di.size.toNat (off + 0) = ip.di.size.toNat := max_eq_left hoff
  refine ⟨Stored.refl h ho, le_refl 0, fun k hk => ?_, fun k _ => ?_⟩
  · rw [hmax] at hk
    exact hf.mapped k hk
  · rw [if_neg (by omega)]

theorem getD_take_drop (hj : j < ((data.drop t).take m).length) :
    ((data.drop t).take m).getD j 0 = data.getD (t + j) 0 := by
  have hm : j < m := lt_of_lt_of_le hj (length_take_le _ _)
  rw [getD_eq_getElem?_getD, getD_eq_getElem?_getD, getElem?_take_of_lt hm,
    getElem?_drop]

/-- **One iteration of the loop of `writei`**: the block at `off + tot` is mapped and a
chunk of the data goes into it. -/
theorem WriteInv.chunk (hl : sb.Layout) (ho : Open sb ino ip) (hf : Filled d ip.di)
    (m tot' : Nat) (h : WriteInv sb d ino K ip off data tot tot d₁ ip₁)
    (ht : Took sb d₁ (withInode ino ip₁) K ip₁ (.data ((off + tot) / BSIZE)) (b, d₂, ip₂))
    (hm : (off + tot) % BSIZE + m ≤ BSIZE) (hlt : off + tot < MAXFILE * BSIZE)
    (htot' : tot' ≤ tot + ((data.drop tot).take m).length) :
    WriteInv sb d ino K ip off data tot' (tot + ((data.drop tot).take m).length)
      (update d₂ b ((d₂ b).patch ((off + tot) % BSIZE) ((data.drop tot).take m))) ip₂ := by
  have hget := fun j => @getD_take_drop m tot j data
  have hfit : (off + tot) % BSIZE + ((data.drop tot).take m).length ≤ BSIZE :=
    (Nat.add_le_add_left (length_take_le _ _) _).trans hm
  generalize (data.drop tot).take m = chunk at *
  have ho₁ := h.isOpen ho
  have ho₂ := ht.isOpen ho₁
  have hb : blockAt d₂ ip₂.di ((off + tot) / BSIZE) = b := ht.val
  have h0 : b ≠ 0 := ht.ne
  have hu := ht.uses ho₁ (div_lt_maxfile hlt)
  have hdm := Nat.div_add_mod (off + tot) BSIZE
  -- a byte that the file has then is one it had before, or one of the chunk
  have hcase : ∀ k, k < max ip.di.size.toNat (off + tot') →
      k < max ip.di.size.toNat (off + tot) ∨ off + tot ≤ k ∧ k < off + tot + chunk.length := by
    intro k hk
    rcases lt_max_iff.mp hk with hk | hk
    · exact .inl (lt_max_of_lt_left hk)
    · by_cases hk' : k < off + tot
      · exact .inl (lt_max_of_lt_right hk')
      · exact .inr ⟨by omega, by omega⟩
  have hfile : ∀ k, k < max ip.di.size.toNat (off + tot) → k / BSIZE < MAXFILE := by
    intro k hk
    have hsize := hf.size
    refine div_lt_maxfile ?_
    rcases lt_max_iff.mp hk with hk | hk <;> omega
  have hdiv : ∀ k, off + tot ≤ k → k < off + tot + chunk.length → k / BSIZE = (off + tot) / BSIZE := by
    intro k hk hk'
    refine Nat.div_eq_of_lt_le ?_ ?_
    · rw [mul_comm]
      omega
    · rw [add_mul, mul_comm]
      omega
  have hmapped : ∀ k, k < max ip.di.size.toNat (off + tot') →
      k / BSIZE < MAXFILE ∧ blockAt d₂ ip₂.di (k / BSIZE) ≠ 0 := by
    intro k hk
    rcases hcase k hk with hk | ⟨hle, hk⟩
    · exact ⟨hfile k hk, (ht.blockAt (hfile k hk) (h.mapped k hk)).trans_ne (h.mapped k hk)⟩
    · rw [hdiv k hle hk]
      exact ⟨div_lt_maxfile hlt, hb.trans_ne h0⟩
  refine ⟨h.toStored.chunk hl ho (div_lt_maxfile hlt) ht _, htot', fun k hk => ?_, fun k hk => ?_⟩
  · exact (blockAt_store ht.owned ho₂ hu _ _).trans_ne (hmapped k hk).2
  rw [byteAt_store ht.owned ho₂ hu hfit (hmapped k hk).1 (hmapped k hk).2]
  by_cases hin : off + tot ≤ k ∧ k < off + tot + chunk.length
  · rw [if_pos hin, if_pos (by omega), hget _ (by omega)]
    congr 1
    omega
  · have hk' := (hcase k hk).resolve_right hin
    rw [if_neg hin, ht.byteAt ho₁ (hfile k hk') (h.mapped k hk'), h.bytes k hk']
    exact ite_congr (propext (by omega)) (fun _ => rfl) fun _ => rfl

/-- **The loop of `writei`.** -/
theorem writeLoop_spec (hl : sb.Layout) (ho : Open sb ino ip) (hf : Filled d ip.di)
    {n : Nat} (hmax : off + n ≤ MAXFILE * BSIZE) (fuel : Nat)
    (hfuel : n ≤ tot + fuel) (hn : tot ≤ n) (hlen : tot ≤ (copyin src 0 n).length)
    (h : WriteInv sb d ino K ip off (copyin src 0 n) tot tot d₁ ip₁) :
    Safe OutOfBlocks (writeLoop sb src n fuel d₁ ip₁ tot (off + tot)) fun r =>
      r.2.1 = off + r.1 ∧ r.1 ≤ n ∧ ((copyin src 0 n).length = n → r.1 = n) ∧
        WriteInv sb d ino K ip off (copyin src 0 n) r.1 (copyin src 0 n).length r.2.2.1 r.2.2.2 := by
  have hle := copyin_length_le src 0 n
  -- when everything is stored, all of the data was copied
  have hdone : n ≤ tot → (copyin src 0 n).length = tot := by omega
  induction fuel generalizing tot d₁ ip₁ with
  | zero =>
    have hd := hdone (by omega)
    exact Safe.ok ⟨rfl, hn, fun _ => by omega, by rw [hd]; exact h⟩
  | succ fuel ih =>
    rw [writeLoop]
    by_cases hlt : tot < n
    · rw [if_pos hlt]
      refine (bmap_spec hl h.owned (h.isOpen ho) (div_lt_maxfile (by omega))).bind ?_
      rintro ⟨b, d₂, ip₂⟩ ht
      have hmod : (off + tot) % BSIZE < BSIZE := Nat.mod_lt _ (by decide)
      obtain ⟨m, hm⟩ : ∃ m, m = min (n - tot) (BSIZE - (off + tot) % BSIZE) := ⟨_, rfl⟩
      have hmn : m ≤ n - tot := hm ▸ min_le_left _ _
      have hchunk : copyin src tot m = ((copyin src 0 n).drop tot).take m := by
        rw [← copyin_drop src hlen, zero_add]
        exact copyin_take src tot hmn
      have hstep := fun tot' => WriteInv.chunk hl ho hf m tot' h ht (by omega) (by omega)
      have hcl : (((copyin src 0 n).drop tot).take m).length = min m ((copyin src 0 n).length - tot) := by
        rw [length_take, length_drop]
      show Safe OutOfBlocks
        (if (copyin src tot (min (n - tot) (BSIZE - (off + tot) % BSIZE))).length <
            min (n - tot) (BSIZE - (off + tot) % BSIZE) then _ else _) _
      rw [← hm, hchunk]
      by_cases hshort : (((copyin src 0 n).drop tot).take m).length < m
      · -- the copy failed: what was copied is all there is
        rw [if_pos hshort]
        have hall : tot + (((copyin src 0 n).drop tot).take m).length = (copyin src 0 n).length := by omega
        refine Safe.ok ⟨rfl, hn, fun hc => by omega, ?_⟩
        have hinv := hstep tot (Nat.le_add_right _ _)
        rw [hall] at hinv
        exact hinv
      · rw [if_neg hshort, add_assoc]
        have hinv := hstep (tot + m) (by omega)
        rw [show tot + (((copyin src 0 n).drop tot).take m).length = tot + m by omega] at hinv
        exact ih (by omega) (by omega) (by omega) hinv (by omega)
    · rw [if_neg hlt]
      have hd := hdone (by omega)
      exact Safe.ok ⟨rfl, hn, fun _ => by omega, by rw [hd]; exact h⟩

/-- The loop keeps ownership, whatever the file was like before it. -/
theorem writeLoop_stored (hl : sb.Layout) (ho : Open sb ino ip) {n : Nat}
    (hmax : off + n ≤ MAXFILE * BSIZE) (fuel : Nat) (hn : tot ≤ n)
    (h : Stored sb d ino K ip d₁ ip₁) :
    Safe OutOfBlocks (writeLoop sb src n fuel d₁ ip₁ tot (off + tot)) fun r =>
      r.2.1 = off + r.1 ∧ r.1 ≤ n ∧ Stored sb d ino K ip r.2.2.1 r.2.2.2 := by
  induction fuel generalizing tot d₁ ip₁ with
  | zero => exact Safe.ok ⟨rfl, hn, h⟩
  | succ fuel ih =>
    rw [writeLoop]
    by_cases hlt : tot < n
    · rw [if_pos hlt]
      have hbn : (off + tot) / BSIZE < MAXFILE := div_lt_maxfile (by omega)
      refine (bmap_spec hl h.owned (h.isOpen ho) hbn).bind ?_
      rintro ⟨b, d₂, ip₂⟩ ht
      have hst := fun blk => h.chunk hl ho hbn ht blk
      dsimp only
      split
      · exact Safe.ok ⟨rfl, hn, hst _⟩
      · rw [add_assoc]
        exact ih (by omega) (hst _)
    · rw [if_neg hlt]
      exact Safe.ok ⟨rfl, hn, h⟩

/-! ### Well-formed states -/

/-- Marked blocks that no slot refers to. -/
def Spare (sb : SuperBlock) (d : Disk) (b : Nat) : Prop :=
  sb.datastart ≤ b ∧ b < sb.size ∧ bitAt sb d b = true ∧ ∀ i s, ¬ Uses sb d (dinode sb d) All i s b

/-- A file system state in which each block that is referred to is a marked data block
and is referred to by one slot, and files have no holes. -/
structure Wf (sb : SuperBlock) (d : Disk) : Prop where
  layout : sb.Layout
  reserved : MetaMarked sb d
  data : ∀ i s b, Uses sb d (dinode sb d) All i s b → sb.datastart ≤ b ∧ b < sb.size
  marked : ∀ i s b, Uses sb d (dinode sb d) All i s b → bitAt sb d b = true
  once : ∀ i s i' s' b, Uses sb d (dinode sb d) All i s b → Uses sb d (dinode sb d) All i' s' b →
    i = i' ∧ s = s'
  filled : ∀ i, i < sb.ninodes → (dinode sb d i).type ≠ 0 → Filled d (dinode sb d i)

theorem Wf.owned (h : Wf sb d) : Owned sb d (dinode sb d) All (Spare sb d) := by
  refine ⟨h.data, h.once, fun b hb hb' => ⟨fun hbit => ?_, ?_⟩, ?_, h.reserved⟩
  · by_cases hu : ∃ i s, Uses sb d (dinode sb d) All i s b
    · exact .inl hu
    · exact .inr ⟨hb, hb', hbit, fun i s hc => hu ⟨i, s, hc⟩⟩
  · rintro (⟨i, s, hu⟩ | hk)
    · exact h.marked i s b hu
    · exact hk.2.2.1
  · rintro i s b ⟨-, -, -, hn⟩
    exact hn i s

theorem Owned.wf (hl : sb.Layout) (h : Owned sb d (dinode sb d) All K)
    (hf : ∀ i, i < sb.ninodes → (dinode sb d i).type ≠ 0 → Filled d (dinode sb d i)) : Wf sb d :=
  ⟨hl, h.reserved, h.data, fun _ _ _ hu => h.bit hu, h.inj, hf⟩

/-- What `writei` did: `data` was stored from `off` on and the size covers the first
`tot` bytes of it. -/
structure Wrote (sb : SuperBlock) (d : Disk) (ip : Inode) (off : Nat) (data : List UInt8) (tot : Nat)
    (d' : Disk) (ip' : Inode) : Prop where
  inum : ip'.inum = ip.inum
  cur : Open sb (dinode sb d') ip'
  wf : Wf sb d'
  size : ip'.di.size.toNat = max ip.di.size.toNat (off + tot)
  content : content d' ip'.di = (splice (content d ip.di) off data).take (max ip.di.size.toNat (off + tot))
  others : ∀ i, i < sb.ninodes → i ≠ ip.inum → dinode sb d' i = dinode sb d i ∧
    ((dinode sb d i).type ≠ 0 → Fs.content d' (dinode sb d' i) = Fs.content d (dinode sb d i))

/-- The other files, when none of their blocks has changed. -/
theorem file_kept (hw : Wf sb d) (hi : i < sb.ninodes) (hty : (dinode sb d i).type ≠ 0)
    (hkept : ∀ t c, Uses sb d (dinode sb d) All i t c → d' c = d c) :
    Filled d' (dinode sb d i) ∧ content d' (dinode sb d i) = content d (dinode sb d i) := by
  have hf := hw.filled i hi hty
  have hind : (dinode sb d i).addr NDIRECT ≠ 0 →
      d' ((dinode sb d i).addr NDIRECT) = d ((dinode sb d i).addr NDIRECT) := fun h0 =>
    hkept .indirect _ ⟨hi, hty, trivial, trivial, rfl, h0⟩
  refine ⟨⟨hf.size, fun k hk => ?_⟩, content_congr rfl fun k hk => byteAt_congr hind ?_⟩
  · rw [blockAt_congr hind]
    exact hf.mapped k hk
  · have hlt : k / BSIZE < MAXFILE := div_lt_maxfile (lt_of_lt_of_le hk hf.size)
    exact hkept (.data (k / BSIZE)) _ ⟨hi, hty, hlt, trivial, rfl, hf.mapped k hk⟩

/-- The content of a file given byte by byte. -/
theorem content_splice (hoff : off ≤ di.size.toNat)
    (hle : tot ≤ data.length) (hsize : di'.size.toNat = max di.size.toNat (off + tot))
    (hbytes : ∀ k, k < max di.size.toNat (off + tot) → byteAt d' di' k =
      if off ≤ k ∧ k < off + data.length then data.getD (k - off) 0 else byteAt d di k) :
    content d' di' = (splice (content d di) off data).take (max di.size.toNat (off + tot)) := by
  refine ext_getElem? fun k => ?_
  by_cases hk : k < max di.size.toNat (off + tot)
  · have hoff' : off ≤ (content d di).length := by
      rw [content_length]
      exact hoff
    rw [content_getElem? (by rw [hsize]; exact hk), hbytes k hk, getElem?_take_of_lt hk,
      getElem?_splice hoff']
    by_cases hin : off ≤ k ∧ k < off + data.length
    · have hlt : k - off < data.length := by omega
      rw [if_pos hin, if_pos hin, getElem?_eq_getElem hlt, getD_eq_getElem _ _ hlt]
    have hold : k < di.size.toNat := by
      rcases lt_max_iff.mp hk with hk | hk
      · exact hk
      · omega
    rw [if_neg hin, if_neg hin, content_getElem? hold]
  · rw [getElem?_eq_none, getElem?_eq_none]
    · exact (length_take_le _ _).trans (Nat.le_of_not_lt hk)
    · rw [content_length, hsize]
      exact Nat.le_of_not_lt hk

/-- The end of `writei`: the size is set and the inode written back. -/
theorem WriteInv.finish (hw : Wf sb d) (ho : Open sb (dinode sb d) ip)
    (hoff : off ≤ ip.di.size.toNat) (hmax : off + tot ≤ MAXFILE * BSIZE)
    (h : WriteInv sb d (dinode sb d) K ip off data tot data.length d₁ ip₁) (hinum : ip'.inum = ip₁.inum)
    (htype : ip'.di.type = ip₁.di.type) (haddrs : ip'.di.addrs = ip₁.di.addrs)
    (hsize : ip'.di.size.toNat = max ip.di.size.toNat (off + tot)) :
    Wrote sb d ip off data tot (iupdate sb d₁ ip') ip' := by
  have hl := hw.layout
  have hf : Filled d ip.di := ho.cur ▸ hw.filled _ ho.lt (by rw [ho.cur]; exact ho.type)
  have ho₁ := h.isOpen ho
  have hin : ip'.inum = ip.inum := hinum.trans h.inum
  have hlt : ip'.inum < sb.ninodes := by
    rw [hin]
    exact ho.lt
  have hhigh : ∀ x, sb.bmapstart ≤ x → iupdate sb d₁ ip' x = d₁ x := fun x hx =>
    setDinode_high hl hlt _ hx
  have hdin : ∀ i, i < sb.ninodes → dinode sb (iupdate sb d₁ ip') i = withInode (dinode sb d) ip' i :=
    fun i hi => dinode_iupdate hl h.low hi
  have hown := h.owned.sync hl h.low ho₁.lt hinum htype haddrs
  have hself : dinode sb (iupdate sb d₁ ip') ip'.inum = ip'.di := by rw [hdin _ hlt, withInode_self]
  -- the blocks of the file are those that the loop left
  have hblock : ∀ bn, blockAt (iupdate sb d₁ ip') ip'.di bn = blockAt d₁ ip₁.di bn := by
    intro bn
    have hb : blockAt (iupdate sb d₁ ip') ip'.di bn = blockAt (iupdate sb d₁ ip') ip₁.di bn :=
      Slot.val_addrs haddrs (.data bn)
    rw [hb]
    refine blockAt_congr (fun h0 => hhigh _ (hl.data.trans ?_)) bn
    exact (h.owned.data _ _ _ (ho₁.uses (t := .indirect) trivial trivial h0)).1
  have hbyte : ∀ k, k < max ip.di.size.toNat (off + tot) →
      byteAt (iupdate sb d₁ ip') ip'.di k = byteAt d₁ ip₁.di k := by
    intro k hk
    have hk' : k / BSIZE < MAXFILE := by
      have hfs := hf.size
      refine div_lt_maxfile ?_
      rcases lt_max_iff.mp hk with hk | hk <;> omega
    have hu := ho₁.uses (t := .data (k / BSIZE)) (L := All) hk' trivial (h.mapped k hk)
    unfold byteAt
    rw [hblock]
    exact congrArg (fun blk => Bytes.get blk _) (hhigh _ (hl.data.trans (h.owned.data _ _ _ hu).1))
  have hother : ∀ i, i < sb.ninodes → i ≠ ip.inum → dinode sb (iupdate sb d₁ ip') i = dinode sb d i := by
    intro i hi hne
    rw [hdin i hi, withInode_of_ne _ (by rw [hin]; exact hne)]
  have hkept : ∀ i, i ≠ ip.inum → ∀ t c, Uses sb d (dinode sb d) All i t c → iupdate sb d₁ ip' c = d c := by
    intro i hne t c hu
    rw [hhigh c (hl.data.trans (hw.data _ _ _ hu).1)]
    exact (h.kept i t c hu).1 hne
  refine ⟨hin, ⟨hlt, ?_, hself⟩, hown.wf hl ?_, hsize, ?_, fun i hi hne => ⟨hother i hi hne, fun hty => ?_⟩⟩
  · rw [htype]
    exact ho₁.type
  · intro i hi hty
    by_cases hii : i = ip.inum
    · rw [hii, ← hin, hself]
      refine ⟨?_, fun k hk => ?_⟩
      · rw [hsize]
        exact max_le hf.size hmax
      · rw [hblock]
        exact h.mapped k (hsize ▸ hk)
    · rw [hother i hi hii] at hty ⊢
      exact (file_kept hw hi hty (hkept i hii)).1
  · exact content_splice hoff h.le hsize fun k hk => (hbyte k hk).trans (h.bytes k hk)
  · rw [hother i hi hne]
    exact (file_kept hw hi hty (hkept i hne)).2

/-- The range checks of `writei` let the call through. -/
def WriteRange (ip : Inode) (off n : UInt32) : Prop :=
  off.toNat ≤ ip.di.size.toNat ∧ off.toNat + n.toNat < 2 ^ 32 ∧ off.toNat + n.toNat ≤ MAXFILE * BSIZE

theorem add_lt_self_iff (a b : UInt32) : a + b < a ↔ 2 ^ 32 ≤ a.toNat + b.toNat := by
  rw [UInt32.lt_iff_toNat_lt, UInt32.toNat_add]
  have hb := b.toNat_lt
  omega

variable {n : UInt32}

/-- A failed range check changes nothing. -/
theorem writei_range {off : UInt32} (h : ¬ WriteRange ip off n) : writei sb d ip src off n = .ok (-1, d, ip) := by
  unfold writei
  by_cases h₁ : off > ip.di.size ∨ off + n < off
  · rw [if_pos h₁]
  rw [if_neg h₁, if_pos]
  rw [add_lt_self_iff, gt_iff_lt, lt_iff_toNat_lt] at h₁
  by_contra h₂
  have hadd : (off + n).toNat = off.toNat + n.toNat := by
    rw [UInt32.toNat_add]
    exact Nat.mod_eq_of_lt (by omega)
  exact h ⟨by omega, by omega, by omega⟩

theorem toNat_add_of_range {off : UInt32} (hr : WriteRange ip off n) : (off + n).toNat = off.toNat + n.toNat := by
  exact Nat.mod_eq_of_lt hr.2.1

/-- `writei` when the range checks let the call through. -/
theorem writei_eq {off : UInt32} (hr : WriteRange ip off n) :
    writei sb d ip src off n = (do
      let (tot, off, d, ip) ← writeLoop sb src n.toNat n.toNat d ip 0 off.toNat
      let ip := if off > ip.di.size.toNat then { ip with di := ip.di.setSize off } else ip
      return (tot, iupdate sb d ip, ip)) := by
  obtain ⟨hoff, hwrap, hmax⟩ := hr
  unfold writei
  rw [if_neg, if_neg]
  · rw [toNat_add_of_range ⟨hoff, hwrap, hmax⟩]
    omega
  · rw [add_lt_self_iff, gt_iff_lt, lt_iff_toNat_lt]
    omega

/-- What a call has done to ownership, when it has written its inode back. -/
structure Settled (sb : SuperBlock) (d : Disk) (K : Nat → Prop) (ip : Inode) (d' : Disk) (ip' : Inode) : Prop where
  owned : Owned sb d' (dinode sb d') All K
  inum : ip'.inum = ip.inum
  type : ip'.di.type = ip.di.type
  disk : ∀ i, i < sb.ninodes → dinode sb d' i = withInode (dinode sb d) ip' i
  kept : ∀ i t c, Uses sb d (dinode sb d) All i t c → Uses sb d' (dinode sb d') All i t c

theorem Stored.settle (hl : sb.Layout) (ho : Open sb (dinode sb d) ip)
    (h : Stored sb d (dinode sb d) K ip d₁ ip₁) (hinum : ip'.inum = ip₁.inum)
    (htype : ip'.di.type = ip₁.di.type) (haddrs : ip'.di.addrs = ip₁.di.addrs) :
    Settled sb d K ip (iupdate sb d₁ ip') ip' := by
  have hlt := (h.isOpen ho).lt
  refine ⟨h.owned.sync hl h.low hlt hinum htype haddrs, hinum.trans h.inum,
    htype.trans (type_of_attrs h.attrs), fun i hi => dinode_iupdate hl h.low hi, fun i t c hu => ?_⟩
  exact (uses_sync hl h.owned h.low hlt hinum htype haddrs i t c).mpr (h.kept i t c hu).2

/-- **`writei`** keeps ownership, also when a copy fails. -/
theorem writei_owned (hl : sb.Layout) (h : Owned sb d (dinode sb d) All K) (ho : Open sb (dinode sb d) ip)
    (src : Nat → Option UInt8) (off n : UInt32) :
    Safe OutOfBlocks (writei sb d ip src off n) fun r => Settled sb d K ip r.2.1 r.2.2 := by
  by_cases hr : WriteRange ip off n
  · rw [writei_eq hr]
    refine (writeLoop_stored hl ho hr.2.2 n.toNat (Nat.zero_le _) (Stored.refl h ho)).bind ?_
    rintro ⟨tot, off', d₁, ip₁⟩ ⟨-, -, hst⟩
    refine Safe.ok ?_
    -- whether the size changes or not
    by_cases hgt : off' > ip₁.di.size.toNat
    · rw [if_pos hgt]
      exact hst.settle hl ho rfl rfl rfl
    · rw [if_neg hgt]
      exact hst.settle hl ho rfl rfl rfl
  · rw [writei_range hr]
    exact Safe.ok ⟨h, rfl, rfl, fun i _ => by rw [ho.withInode], fun _ _ _ hu => hu⟩

/-- **`writei`** stores the bytes that it can copy. -/
theorem writei_spec (hw : Wf sb d) (ho : Open sb (dinode sb d) ip) {off : UInt32} (hr : WriteRange ip off n) :
    Safe OutOfBlocks (writei sb d ip src off n) fun r =>
      ∃ tot : Nat, r.1 = tot ∧ tot ≤ n.toNat ∧ ((copyin src 0 n.toNat).length = n.toNat → tot = n.toNat) ∧
        Wrote sb d ip off.toNat (copyin src 0 n.toNat) tot r.2.1 r.2.2 := by
  rw [writei_eq hr]
  obtain ⟨hoff, hwrap, hmax⟩ := hr
  have hf : Filled d ip.di := ho.cur ▸ hw.filled _ ho.lt (by rw [ho.cur]; exact ho.type)
  refine (writeLoop_spec hw.layout ho hf hmax n.toNat (by omega) (Nat.zero_le _) (Nat.zero_le _)
    (writeInv_init hw.owned ho hf hoff _)).bind ?_
  rintro ⟨tot, off', d₁, ip₁⟩ ⟨hoff', hle, hall, hinv⟩
  obtain rfl : off' = off.toNat + tot := hoff'
  refine Safe.ok ⟨tot, rfl, hle, hall, ?_⟩
  have hsz : ip₁.di.size = ip.di.size := size_of_attrs hinv.attrs
  have hfit : off.toNat + tot < 2 ^ 32 := by omega
  by_cases hgt : off.toNat + tot > ip₁.di.size.toNat
  · rw [if_pos hgt]
    refine hinv.finish hw ho hoff (by omega) rfl rfl rfl ?_
    show (ofNat (off.toNat + tot)).toNat = _
    rw [toNat_ofNat_of_lt' hfit, max_eq_right (by rw [← hsz]; omega)]
  · rw [if_neg hgt]
    refine hinv.finish hw ho hoff (by omega) rfl rfl rfl ?_
    rw [hsz] at hgt
    rw [hsz, max_eq_left (by omega)]

/-! ### Reading -/

theorem copyout_length_le (dst : Nat → Bool) (a : Nat) (l : List UInt8) : (copyout dst a l).length ≤ l.length := by
  induction l generalizing a with
  | nil => exact le_refl 0
  | cons x l ih =>
    rw [copyout]
    split
    · exact Nat.succ_le_succ (ih (a + 1))
    · exact Nat.zero_le _

/-- Copying out in two steps, of which the second is taken if the first succeeds. -/
theorem copyout_append (dst : Nat → Bool) (a : Nat) (l l' : List UInt8) :
    copyout dst a (l ++ l') = copyout dst a l ++
      if (copyout dst a l).length < l.length then [] else copyout dst (a + l.length) l' := by
  induction l generalizing a with
  | nil => rfl
  | cons x l ih =>
    rw [cons_append, copyout, copyout]
    by_cases hx : dst a = true
    · rw [if_pos hx, if_pos hx, ih, cons_append, length_cons, length_cons,
        add_assoc a 1, add_comm 1 l.length]
      simp only [Nat.add_lt_add_iff_right]
    · rw [if_neg hx, if_neg hx]
      simp

variable {dst : Nat → Bool}

theorem copyout_eq (h : ∀ k, k < l.length → dst (a + k) = true) : copyout dst a l = l := by
  induction l generalizing a with
  | nil => rfl
  | cons x l ih =>
    have hx : dst a = true := h 0 (Nat.succ_pos _)
    rw [copyout, if_pos hx, ih]
    intro k hk
    rw [add_assoc, add_comm 1 k]
    exact h (k + 1) (Nat.succ_lt_succ hk)

theorem addrOrAlloc_old (h0 : ip.di.addr k ≠ 0) : addrOrAlloc sb d ip k = .ok (ip.di.addr k, d, ip) := by
  unfold addrOrAlloc
  rw [if_neg h0]
  rfl

/-- `bmap` of a block that the file has. -/
theorem bmap_old (hbn : bn < MAXFILE) (h0 : blockAt d ip.di bn ≠ 0) :
    bmap sb d ip bn = .ok (blockAt d ip.di bn, d, ip) := by
  unfold blockAt at h0 ⊢
  unfold bmap
  by_cases hd : bn < NDIRECT
  · rw [if_pos hd] at h0
    rw [if_pos hd, if_pos hd, addrOrAlloc_old h0]
  have hj : bn - NDIRECT < NINDIRECT := Nat.sub_lt_left_of_lt_add (by omega) hbn
  rw [if_neg hd] at h0
  by_cases hi : ip.di.addr NDIRECT = 0
  · rw [if_pos hi] at h0
    exact absurd rfl h0
  rw [if_neg hi] at h0
  rw [if_neg hd, if_neg hd, if_pos hj, if_neg hi, addrOrAlloc_old hi]
  simp only [bind, Except.bind, if_neg h0]
  rfl

/-- A part of one block of a file. -/
theorem slice_eq_content (hfit : o % BSIZE + m ≤ BSIZE) (hsize : o + m ≤ di.size.toNat) :
    (d (blockAt d di (o / BSIZE))).slice (o % BSIZE) m = ((content d di).drop o).take m := by
  refine ext_getElem? fun k => ?_
  by_cases hk : k < m
  · have hdo := Nat.div_add_mod o BSIZE
    -- byte `o + k` is in the same block as byte `o`
    have hdiv : (o + k) / BSIZE = o / BSIZE := by
      refine Nat.div_eq_of_lt_le ?_ ?_
      · rw [mul_comm]
        omega
      · rw [add_mul, mul_comm]
        omega
    have hmod : (o + k) % BSIZE = o % BSIZE + k := by
      have hdk := Nat.div_add_mod (o + k) BSIZE
      rw [hdiv] at hdk
      omega
    rw [getElem?_take_of_lt hk, getElem?_drop, content_getElem? (by omega)]
    unfold Bytes.slice byteAt
    rw [getElem?_map, getElem?_range hk, hdiv, hmod]
    rfl
  · rw [getElem?_eq_none (by rw [Bytes.slice_length]; omega),
      getElem?_eq_none ((length_take_le _ _).trans (by omega))]

/-- **The loop of `readi`** copies out a part of the content and changes nothing, if the file has the blocks
up to there. -/
theorem readLoop_part {n : Nat} (hmapped : ∀ k, k < off + n → blockAt d ip.di (k / BSIZE) ≠ 0)
    (hmax : off + n ≤ MAXFILE * BSIZE) (hsize : off + n ≤ ip.di.size.toNat) (fuel : Nat) {out : List UInt8} (hfuel : n ≤ tot + fuel) (hn : tot ≤ n) :
    readLoop sb dst n fuel d ip tot (off + tot) out =
      .ok (if (copyout dst tot (((content d ip.di).drop (off + tot)).take (n - tot))).length < n - tot
            then -1 else n,
        out ++ copyout dst tot (((content d ip.di).drop (off + tot)).take (n - tot)), d, ip) := by
  induction fuel generalizing tot out with
  | zero =>
    obtain rfl : tot = n := by omega
    simp [readLoop, copyout]
  | succ fuel ih =>
    rw [readLoop]
    by_cases hlt : tot < n
    · have hmod : (off + tot) % BSIZE < BSIZE := Nat.mod_lt _ (by decide)
      obtain ⟨m, hm⟩ : ∃ m, m = min (n - tot) (BSIZE - (off + tot) % BSIZE) := ⟨_, rfl⟩
      rw [if_pos hlt, bmap_old (div_lt_maxfile (by omega)) (hmapped _ (by omega))]
      show (if (copyout dst tot (Bytes.slice _ _ (min (n - tot) (BSIZE - (off + tot) % BSIZE)))).length <
          min (n - tot) (BSIZE - (off + tot) % BSIZE) then _ else _) = _
      rw [← hm, slice_eq_content (by omega) (by omega)]
      -- the rest of the range is this chunk and what comes after it
      have hrest : ((content d ip.di).drop (off + tot)).take (n - tot) =
          ((content d ip.di).drop (off + tot)).take m ++
            ((content d ip.di).drop (off + (tot + m))).take (n - (tot + m)) := by
        rw [show n - tot = m + (n - (tot + m)) by omega, take_add, drop_drop, add_assoc]
      have hlen : (((content d ip.di).drop (off + tot)).take m).length = m := by
        rw [length_take, length_drop, content_length]
        omega
      rw [hrest, copyout_append, hlen]
      by_cases hshort : (copyout dst tot (((content d ip.di).drop (off + tot)).take m)).length < m
      · rw [if_pos hshort, if_pos hshort, append_nil, if_pos (by omega)]
      have hle := copyout_length_le dst tot (((content d ip.di).drop (off + tot)).take m)
      rw [if_neg hshort, if_neg hshort, add_assoc, ih (by omega) (by omega), append_assoc]
      congr 2
      refine ite_congr (propext ?_) (fun _ => rfl) fun _ => rfl
      rw [length_append]
      omega
    · obtain rfl : tot = n := by omega
      simp [copyout]

/-- The bytes that a call of `readi` asks for, as far as the file has them. -/
def readRange (d : Disk) (ip : Inode) (off n : UInt32) : List UInt8 :=
  if off.toNat ≤ ip.di.size.toNat ∧ off.toNat + n.toNat < 2 ^ 32 then
    ((content d ip.di).drop off.toNat).take n.toNat
  else []

/-- **`readi`** copies out what the caller's memory takes, and changes nothing. -/
theorem readi_spec (hf : Filled d ip.di) (dst : Nat → Bool) (off n : UInt32) :
    readi sb d ip dst off n =
      .ok (if (copyout dst 0 (readRange d ip off n)).length < (readRange d ip off n).length then -1
            else (readRange d ip off n).length,
        copyout dst 0 (readRange d ip off n), d, ip) := by
  by_cases hr : off.toNat ≤ ip.di.size.toNat ∧ off.toNat + n.toNat < 2 ^ 32
  · obtain ⟨hoff, hwrap⟩ := hr
    have hadd : (off + n).toNat = off.toNat + n.toNat := by
      exact Nat.mod_eq_of_lt hwrap
    have hrange : readRange d ip off n = ((content d ip.di).drop off.toNat).take n.toNat :=
      if_pos ⟨hoff, hwrap⟩
    unfold readi
    rw [hrange, if_neg]
    · -- the request is cut at the end of the file
      obtain ⟨m, hm, hmin⟩ : ∃ m : UInt32, (if off + n > ip.di.size then ip.di.size - off else n) = m ∧
          m.toNat = min n.toNat (ip.di.size.toNat - off.toNat) := by
        refine ⟨_, rfl, ?_⟩
        by_cases hgt : off + n > ip.di.size
        · have hgt' := lt_iff_toNat_lt.mp hgt
          rw [if_pos hgt, UInt32.toNat_sub_of_le _ _ (UInt32.le_iff_toNat_le.mpr hoff)]
          omega
        · have hgt' := mt lt_iff_toNat_lt.mpr hgt
          rw [if_neg hgt]
          omega
      have htake : ((content d ip.di).drop off.toNat).take n.toNat =
          ((content d ip.di).drop off.toNat).take m.toNat := by
        rw [take_eq_take_iff, length_drop, content_length]
        omega
      have hlen : (((content d ip.di).drop off.toNat).take m.toNat).length = m.toNat := by
        rw [length_take, length_drop, content_length]
        omega
      rw [hm, htake, hlen]
      have hend : off.toNat + m.toNat ≤ ip.di.size.toNat := by omega
      have hloop : readLoop sb dst m.toNat m.toNat d ip 0 (off.toNat + 0) [] = _ :=
        readLoop_part (fun k hk => hf.mapped k (by omega)) (hend.trans hf.size) hend m.toNat (by omega) (Nat.zero_le _)
      exact hloop
    · rw [add_lt_self_iff, gt_iff_lt, lt_iff_toNat_lt]
      omega
  · have hrange : readRange d ip off n = [] := if_neg hr
    unfold readi
    rw [hrange, if_pos]
    · rfl
    · rw [add_lt_self_iff, gt_iff_lt, lt_iff_toNat_lt]
      omega

/-- `readi` inside the file. -/
theorem readi_part {off : UInt32} (hmapped : ∀ k, k < off.toNat + n.toNat → blockAt d ip.di (k / BSIZE) ≠ 0)
    (hmax : off.toNat + n.toNat ≤ MAXFILE * BSIZE) (hsize : off.toNat + n.toNat ≤ ip.di.size.toNat) :
    readi sb d ip (fun _ => true) off n =
      .ok (n.toNat, ((content d ip.di).drop off.toNat).take n.toNat, d, ip) := by
  have hlim : MAXFILE * BSIZE < 2 ^ 32 := by decide
  have hadd : (off + n).toNat = off.toNat + n.toNat := by
    rw [UInt32.toNat_add]
    exact Nat.mod_eq_of_lt (by omega)
  have hcut : ¬ off + n > ip.di.size := by
    rw [gt_iff_lt, lt_iff_toNat_lt]
    omega
  have hlen : (((content d ip.di).drop off.toNat).take n.toNat).length = n.toNat := by
    rw [length_take, length_drop, content_length]
    omega
  have hloop : readLoop sb (fun _ => true) n.toNat n.toNat d ip 0 (off.toNat + 0) [] = _ :=
    readLoop_part hmapped hmax hsize n.toNat (by omega) (Nat.zero_le _)
  rw [Nat.add_zero, Nat.sub_zero, copyout_eq fun _ _ => rfl, hlen, if_neg (lt_irrefl _)] at hloop
  unfold readi
  rw [if_neg]
  · simp only [if_neg hcut]
    exact hloop
  · rw [add_lt_self_iff, gt_iff_lt, lt_iff_toNat_lt]
    omega

/-! ### Sequences of calls -/

/-- Writes to one file, each at its offset. -/
def writeAll (sb : SuperBlock) : Disk → Inode → List (UInt32 × List UInt8) → Except String (Disk × Inode)
  | d, ip, [] => .ok (d, ip)
  | d, ip, (off, data) :: ws => do
    let (_, d, ip) ← writei sb d ip (fun k => data[k]?) off (ofNat data.length)
    writeAll sb d ip ws

/-- Reads of one file from `off` on, `n` bytes for each `n` in the list; returns what
was read. -/
def readAll (sb : SuperBlock) : Disk → Inode → Nat → List Nat → Except String (List UInt8)
  | _, _, _, [] => .ok []
  | d, ip, off, n :: ns => do
    let (_, bytes, d, ip) ← readi sb d ip (fun _ => true) (ofNat off) (ofNat n)
    let rest ← readAll sb d ip (off + n) ns
    return bytes ++ rest

/-- Each write starts inside the file and ends below the greatest size. -/
def WritesIn : Nat → List (UInt32 × List UInt8) → Prop
  | _, [] => True
  | size, (off, data) :: ws =>
    off.toNat ≤ size ∧ off.toNat + data.length ≤ MAXFILE * BSIZE ∧
      WritesIn (max size (off.toNat + data.length)) ws

/-- The pieces of a list, one after the other from `off` on. -/
def pieces : Nat → List (List UInt8) → List (UInt32 × List UInt8)
  | _, [] => []
  | off, c :: cs => (ofNat off, c) :: pieces (off + c.length) cs

/-- The state after writes: a file with the given content in a well-formed file system. -/
structure After (sb : SuperBlock) (ip : Inode) (bytes : List UInt8) (s : Disk × Inode) : Prop where
  inum : s.2.inum = ip.inum
  cur : Open sb (dinode sb s.1) s.2
  wf : Wf sb s.1
  content : content s.1 s.2.di = bytes

/-- A write of a whole list. -/
theorem writei_list (hw : Wf sb d) (ho : Open sb (dinode sb d) ip) {off : UInt32}
    (hr : WriteRange ip off n) (hn : n.toNat = data.length)
    (hsrc : ∀ k, k < data.length → src k = data[k]?) :
    Safe OutOfBlocks (writei sb d ip src off n) fun r =>
      r.1 = n.toNat ∧ Wrote sb d ip off.toNat data n.toNat r.2.1 r.2.2 ∧
        content r.2.1 r.2.2.di = splice (content d ip.di) off.toNat data := by
  have hcopy : copyin src 0 n.toNat = data := by
    rw [hn]
    exact copyin_eq fun k hk => by rw [zero_add]; exact hsrc k hk
  refine (writei_spec hw ho hr).mono ?_
  rintro r ⟨tot, hret, -, hall, hwrote⟩
  rw [hcopy] at hall hwrote
  obtain rfl := hall hn.symm
  refine ⟨hret, hwrote, ?_⟩
  rw [hwrote.content, hn]
  refine take_of_length_le (Nat.le_of_eq ?_)
  rw [splice_length (by rw [content_length]; exact hr.1), content_length]

theorem writeAll_spec (hw : Wf sb d) (ho : Open sb (dinode sb d) ip) (ws : List (UInt32 × List UInt8))
    (hin : WritesIn ip.di.size.toNat ws) :
    Safe OutOfBlocks (writeAll sb d ip ws)
      (After sb ip (ws.foldl (fun l w => splice l w.1.toNat w.2) (content d ip.di))) := by
  induction ws generalizing d ip with
  | nil => exact Safe.ok ⟨rfl, ho, hw, rfl⟩
  | cons w ws ih =>
    obtain ⟨off, data⟩ := w
    obtain ⟨hoff, hmax, hrest⟩ := hin
    have hlim : MAXFILE * BSIZE < 2 ^ 32 := by decide
    have hn : (ofNat data.length).toNat = data.length :=
      toNat_ofNat_of_lt' (show data.length < 2 ^ 32 by omega)
    have hr : WriteRange ip off (ofNat data.length) := by
      refine ⟨hoff, ?_, ?_⟩ <;> rw [hn] <;> omega
    refine (writei_list hw ho hr hn fun _ _ => rfl).bind ?_
    rintro ⟨ret, d₁, ip₁⟩ ⟨-, hwrote, hcont⟩
    have hsize : ip₁.di.size.toNat = max ip.di.size.toNat (off.toNat + data.length) := by
      rw [hwrote.size, hn]
    refine (ih hwrote.wf hwrote.cur (hsize ▸ hrest)).mono fun s hs => ?_
    refine ⟨hs.inum.trans hwrote.inum, hs.cur, hs.wf, ?_⟩
    rw [hs.content, hcont]
    rfl

theorem foldl_pieces (cs : List (List UInt8)) (hoff : off ≤ l.length) (hlt : off + cs.flatten.length < 2 ^ 32) :
    (pieces off cs).foldl (fun l w => splice l w.1.toNat w.2) l = splice l off cs.flatten := by
  induction cs generalizing l off with
  | nil => exact (splice_nil off).symm
  | cons c cs ih =>
    rw [flatten_cons, length_append] at hlt
    have hn : (ofNat off).toNat = off := toNat_ofNat_of_lt' (show off < 2 ^ 32 by omega)
    rw [pieces, foldl_cons, flatten_cons, hn, ← splice_splice hoff]
    refine ih ?_ (by omega)
    rw [splice_length hoff]
    exact le_max_right _ _

theorem writesIn_pieces (cs : List (List UInt8)) {size : Nat} (hoff : off ≤ size)
    (hmax : off + cs.flatten.length ≤ MAXFILE * BSIZE) : WritesIn size (pieces off cs) := by
  induction cs generalizing size off with
  | nil => trivial
  | cons c cs ih =>
    have hlim : MAXFILE * BSIZE < 2 ^ 32 := by decide
    rw [flatten_cons, length_append] at hmax
    have hn : (ofNat off).toNat = off := toNat_ofNat_of_lt' (show off < 2 ^ 32 by omega)
    refine ⟨?_, ?_, ?_⟩
    · rw [hn]
      exact hoff
    · omega
    · rw [hn]
      exact ih (le_max_right _ _) (by omega)

/-- Reads one after the other return what one read returns. -/
theorem readAll_spec (hf : Filled d ip.di) (ns : List Nat) (h : off + ns.sum ≤ ip.di.size.toNat) :
    readAll sb d ip off ns = .ok (((content d ip.di).drop off).take ns.sum) := by
  induction ns generalizing off with
  | nil => rfl
  | cons n ns ih =>
    rw [sum_cons] at h
    have hsize := ip.di.size.toNat_lt
    have hoff : (ofNat off).toNat = off := toNat_ofNat_of_lt' (show off < 2 ^ 32 by omega)
    have hn : (ofNat n).toNat = n := toNat_ofNat_of_lt' (show n < 2 ^ 32 by omega)
    have hrange : readRange d ip (ofNat off) (ofNat n) = ((content d ip.di).drop off).take n := by
      unfold readRange
      rw [hoff, hn, if_pos ⟨by omega, by omega⟩]
    rw [readAll, readi_spec hf, copyout_eq fun _ _ => rfl, hrange]
    show (readAll sb d ip (off + n) ns >>= fun rest => pure (_ ++ rest)) = _
    rw [ih (by omega), sum_cons, take_add, drop_drop]
    rfl

/-- **A file is a list of bytes.**  In a well-formed state, with an inode that is in
memory as it is on disk:

  * a write inside the limits, of bytes that can be copied, replaces that part of the
    content, extends the size if it has to, and leaves other files alone, unless the
    disk is full;
  * any other write returns -1 and does nothing;
  * a read returns the part of the content asked for and changes nothing;
  * after any sequence of writes the content is what the writes make of it, one after
    the other, so that bytes written in pieces are read back in other pieces. -/
theorem file_content (hw : Wf sb d) (ho : Open sb (dinode sb d) ip) :
    (∀ (src : Nat → Option UInt8) (off n : UInt32) (data : List UInt8), WriteRange ip off n →
      n.toNat = data.length → (∀ k, k < data.length → src k = data[k]?) →
      writei sb d ip src off n ≠ .error "balloc: out of blocks" →
      ∃ d' ip', writei sb d ip src off n = .ok (n.toNat, d', ip') ∧
        content d' ip'.di = splice (content d ip.di) off.toNat data ∧
        ip'.di.size.toNat = max ip.di.size.toNat (off.toNat + n.toNat) ∧
        (∀ i, i < sb.ninodes → i ≠ ip.inum → dinode sb d' i = dinode sb d i ∧
          ((dinode sb d i).type ≠ 0 → content d' (dinode sb d' i) = content d (dinode sb d i))) ∧
        ip'.inum = ip.inum ∧ Open sb (dinode sb d') ip' ∧ Wf sb d') ∧
    (∀ (src : Nat → Option UInt8) (off n : UInt32), ¬ WriteRange ip off n →
      writei sb d ip src off n = .ok (-1, d, ip)) ∧
    (∀ (dst : Nat → Bool) (off n : UInt32),
      (∃ ret out, readi sb d ip dst off n = .ok (ret, out, d, ip)) ∧
      ((∀ k, k < (readRange d ip off n).length → dst k = true) →
        readi sb d ip dst off n = .ok ((readRange d ip off n).length, readRange d ip off n, d, ip))) ∧
    (∀ ws : List (UInt32 × List UInt8), WritesIn ip.di.size.toNat ws →
      writeAll sb d ip ws ≠ .error "balloc: out of blocks" →
      ∃ s, writeAll sb d ip ws = .ok s ∧
        After sb ip (ws.foldl (fun l w => splice l w.1.toNat w.2) (content d ip.di)) s) ∧
    (∀ (off : Nat) (cs : List (List UInt8)) (ns : List Nat), off ≤ ip.di.size.toNat →
      off + cs.flatten.length ≤ MAXFILE * BSIZE → ns.sum = cs.flatten.length →
      writeAll sb d ip (pieces off cs) ≠ .error "balloc: out of blocks" →
      ∃ s, writeAll sb d ip (pieces off cs) = .ok s ∧ readAll sb s.1 s.2 off ns = .ok cs.flatten) := by
  have hf : ∀ {d ip}, Wf sb d → Open sb (dinode sb d) ip → Filled d ip.di := fun hw ho =>
    ho.cur ▸ hw.filled _ ho.lt (by rw [ho.cur]; exact ho.type)
  have hfull : ∀ {α : Type} {r : Except String α}, r ≠ .error "balloc: out of blocks" →
      ∀ msg, OutOfBlocks msg → r ≠ .error msg := by
    rintro α r hr msg rfl
    exact hr
  have hseq := fun ws hin hne => (writeAll_spec hw ho ws hin).exists_ok (hfull hne)
  refine ⟨?_, fun src off n hr => writei_range hr, fun dst off n => ⟨⟨_, _, readi_spec (hf hw ho) dst off n⟩, ?_⟩,
    hseq, ?_⟩
  · intro src off n data hr hn hsrc hne
    obtain ⟨⟨ret, d', ip'⟩, hres, rfl, hwrote, hcont⟩ :=
      (writei_list hw ho hr hn hsrc).exists_ok (hfull hne)
    exact ⟨d', ip', hres, hcont, hwrote.size, hwrote.others, hwrote.inum, hwrote.cur, hwrote.wf⟩
  · intro hdst
    have hcopy : copyout dst 0 (readRange d ip off n) = readRange d ip off n :=
      copyout_eq fun k hk => by rw [zero_add]; exact hdst k hk
    rw [readi_spec (hf hw ho), hcopy, if_neg (lt_irrefl _)]
  · intro off cs ns hoff hmax hsum hne
    have hlim : MAXFILE * BSIZE < 2 ^ 32 := by decide
    have hoff' : off ≤ (content d ip.di).length := by
      rw [content_length]
      exact hoff
    obtain ⟨s, hres, hafter⟩ := hseq (pieces off cs) (writesIn_pieces cs hoff hmax) hne
    have hcont := hafter.content
    rw [foldl_pieces cs hoff' (by omega)] at hcont
    have hlen : s.2.di.size.toNat = max (content d ip.di).length (off + cs.flatten.length) := by
      rw [← content_length s.1, hcont, splice_length hoff']
    refine ⟨s, hres, ?_⟩
    rw [readAll_spec (hf hafter.wf hafter.cur) ns (by rw [hlen, hsum]; exact le_max_right _ _), hcont, hsum,
      drop_take_splice hoff']

/-- A disk of 20 blocks: 16 inodes in block 2, the free map in block 3, and data from
block 4 on. -/
def tinySb : SuperBlock := { size := 20, nblocks := 16, ninodes := 16, inodestart := 2, bmapstart := 3 }

/-- An empty file. -/
def tinyFile : Inode := { inum := 1, di := { DInode.zero with type := 2, nlink := 1 } }

/-- The disk with one empty file. -/
def tinyDisk : Disk :=
  setDinode tinySb (update (fun _ => Bytes.zero) 3 (Bytes.zero.patch 0 [15])) 1 tinyFile.di

theorem tiny_layout : tinySb.Layout := by
  refine ⟨by decide, fun i hi => ?_, by decide, fun b hb => ?_, by decide⟩
  · have hi' : i < 16 := hi
    show i / 16 + 2 < 3
    omega
  · have hb' : b < 20 := hb
    show b / 8192 + 3 < 4
    omega

theorem tiny_dinode (hi : i < tinySb.ninodes) :
    dinode tinySb tinyDisk i = if i = 1 then tinyFile.di else DInode.zero := by
  have hb : tinySb.iblock i ≠ 3 := ne_of_lt (tiny_layout.inodes i hi)
  unfold tinyDisk
  rw [dinode_setDinode]
  refine ite_congr rfl (fun _ => rfl) fun _ => ?_
  unfold dinode
  rw [update_of_ne hb, getDinode_zero]

/-- Nothing refers to a block. -/
theorem tiny_uses {s : Slot} : ¬ Uses tinySb tinyDisk (dinode tinySb tinyDisk) All i s b := by
  rintro ⟨hi, -, -, -, hval, h0⟩
  rw [tiny_dinode hi] at hval
  split at hval <;> rw [Slot.val_null rfl] at hval <;> exact h0 hval.symm

theorem tiny_wf : Wf tinySb tinyDisk := by
  refine ⟨tiny_layout, fun b hb => ?_, fun i s b hu => absurd hu tiny_uses, fun i s b hu => absurd hu tiny_uses,
    fun i s i' s' b hu => absurd hu tiny_uses, fun i hi _ => ?_⟩
  · have hb' : b < 4 := hb
    interval_cases b <;> decide
  · rw [tiny_dinode hi]
    split
    · exact ⟨Nat.zero_le _, fun k hk => absurd hk (Nat.not_lt_zero k)⟩
    · exact ⟨Nat.zero_le _, fun k hk => absurd hk (Nat.not_lt_zero k)⟩

theorem tiny_open : Open tinySb (dinode tinySb tinyDisk) tinyFile :=
  ⟨by decide, by decide, tiny_dinode (by decide)⟩

theorem tiny_writes : writei tinySb tinyDisk tinyFile (fun k => [1, 2, 3][k]?) 0 3 ≠
    .error "balloc: out of blocks" := by
  intro h
  have hok : (match writei tinySb tinyDisk tinyFile (fun k => [1, 2, 3][k]?) 0 3 with
    | .ok _ => true
    | .error _ => false) = true := by decide
  rw [h] at hok
  cases hok
/-- Three bytes are written to the empty file. -/
theorem file_content_tiny :
    Wf tinySb tinyDisk ∧ Open tinySb (dinode tinySb tinyDisk) tinyFile ∧
      ∃ d' ip', writei tinySb tinyDisk tinyFile (fun k => [1, 2, 3][k]?) 0 3 = .ok (3, d', ip') ∧
        content d' ip'.di = [1, 2, 3] := by
  refine ⟨tiny_wf, tiny_open, ?_⟩
  obtain ⟨d', ip', hres, hcont, -⟩ := (file_content tiny_wf tiny_open).1 _ 0 3 [1, 2, 3]
    ⟨by decide, by decide, by decide⟩ rfl (fun _ _ => rfl) tiny_writes
  exact ⟨d', ip', hres, hcont⟩

end Xv6.Fs
