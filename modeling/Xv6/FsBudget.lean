/-
Xv6/FsBudget.lean

What one operation of a system call adds to the log.

With one block for the free map, the blocks that a call logs are that block, the blocks of the
inodes it changes, and the blocks that `writei` of a directory entry touches: the block
of the entry, and the indirect block of the directory.  A `Ledger` keeps the account:
`inums` are the inodes, `extra` the other blocks.  It also says which references and locks the call
has, for one reason: `iput` frees an inode, which logs its block, only if the call has the last
reference to it.  Inodes without links that were there before have other references, so
that `iput` on the way along a path frees nothing.

`Fine` ties a ledger to a state, and there is one lemma for each operation that says how
the ledger grows.
-/
import Xv6.WriteLog
import Xv6.NoHoles

namespace Xv6

open Function List UInt32 Outcome Prod

namespace Fs

/-! ### One block of the free map -/

section Blocks

variable {sb : SuperBlock} {d d' : Disk} {ip ip' : Inode} {bs : List Nat} {b : Nat}

theorem bblock_one (hone : sb.size ≤ BPB) (hb : b < sb.size) : sb.bblock b = sb.bmapstart := by
  unfold SuperBlock.bblock
  rw [Nat.div_eq_of_lt (hb.trans_le hone), zero_add]

theorem InMap.one (h : InMap sb bs) (hone : sb.size ≤ BPB) : ∀ y ∈ bs, y = sb.bmapstart := by
  intro y hy
  obtain ⟨x, hx, rfl⟩ := h y hy
  exact bblock_one hone hx

/-- `writei` of one directory entry. -/
theorem writeiLog_entry (hl : sb.Layout) (hone : sb.size ≤ BPB) {src : Str} (hsrc : src.length = DIRENT) {off : UInt32}
    (hoff : DIRENT ∣ off.toNat) {r : Int × Disk × Inode}
    (h : writei sb d ip (fun k => src[k]?) off (.ofNat src.length) = .ok r) :
    ∃ x b, ∀ y ∈ writeiLog sb d ip (fun k => src[k]?) off (.ofNat src.length),
      y = sb.bmapstart ∨ y = sb.iblock ip.inum ∨ y = x ∨ y = b := by
  have hn : (ofNat src.length).toNat = DIRENT := by
    rw [hsrc]
    rfl
  have hmin : min (DIRENT - 0) (BSIZE - off.toNat % BSIZE) = DIRENT := by
    obtain ⟨k, hk⟩ := hoff
    rw [hk]
    show min (16 - 0) (1024 - 16 * k % 1024) = 16
    omega
  have hcopy : copyin (fun k => src[k]?) 0 DIRENT = src := by
    rw [← hsrc]
    exact copyin_eq fun k _ => by rw [zero_add]
  unfold writei at h
  unfold writeiLog
  rw [hn] at h ⊢
  split
  · exact ⟨0, 0, by simp⟩
  next h₁ =>
    rw [if_neg h₁] at h
    split
    · exact ⟨0, 0, by simp⟩
    next h₂ =>
      rw [if_neg h₂] at h
      have hfuel : DIRENT = 15 + 1 := rfl
      rw [hfuel, writeLoop] at h
      rw [hfuel, writeLoopLog, ← hfuel, if_pos (by decide)]
      rcases hb : bmap sb d ip (off.toNat / BSIZE) with msg | ⟨b, d₁, ip₁⟩ <;> rw [hb] at h
      · cases h
      obtain ⟨c, hc, -, hx⟩ := bmapLog_of_ok hl hb
      have hrest : ∀ fuel d ip o, writeLoopLog sb (fun k => src[k]?) DIRENT fuel d ip (0 + DIRENT) o = [] := by
        intro fuel d ip o
        cases fuel with
        | zero => rfl
        | succ fuel => rw [writeLoopLog, if_neg (by decide)]
      refine ⟨ip₁.di.addr NDIRECT, b, fun y hy => ?_⟩
      dsimp only at hy
      rw [hmin, hcopy, hsrc, if_neg (lt_irrefl _), hrest] at hy
      simp only [mem_append, mem_singleton, iupdateLog] at hy
      rcases hy with (hy | hy) | hy
      · rcases hx y hy with hy | hy | ⟨-, hy⟩
        · exact .inl (hc.one hone y hy)
        · exact .inr (.inr (.inr hy))
        · exact .inr (.inr (.inl hy))
      · exact .inr (.inr (.inr hy))
      · exact .inr (.inl hy)

theorem bfreeLog_of_lt (hone : sb.size ≤ BPB) (h : ∀ b ∈ bs, b ≠ 0 → b < sb.size) :
    ∀ y ∈ bfreeLog sb bs, y = sb.bmapstart := by
  intro y hy
  obtain ⟨b, hb, rfl⟩ := mem_map.mp hy
  obtain ⟨hmem, h0⟩ := mem_filter.mp hb
  exact bblock_one hone (h b hmem (of_decide_eq_true h0))

/-- `itrunc` logs the block of the free map and the block of the inode. -/
theorem itruncLog_of_owned {ino : Nat → DInode} {K : Nat → Prop} (hone : sb.size ≤ BPB) (hl : sb.Layout)
    (h : Owned sb d ino All K) (ho : Open sb ino ip) :
    ∀ y ∈ itruncLog sb d ip, y = sb.bmapstart ∨ y = sb.iblock ip.inum := by
  have hinit : DirectInv sb d ino K ip 0 (d, ip) :=
    ⟨Emptying.refl sb d ip, by rw [ho.withInode]; exact h, fun j hj => absurd hj (Nat.not_lt_zero j)⟩
  have hdirect := Safe.foldlM_range (fun k s hk hs => truncDirect_spec hl ho hk hs) hinit
  intro y hy
  rcases mem_append.mp hy with hy | hy
  · rcases mem_append.mp hy with hy | hy
    · refine .inl (bfreeLog_of_lt hone (fun b hb h0 => ?_) y hy)
      obtain ⟨k, hk, rfl⟩ := mem_map.mp hb
      have hk' : k < NDIRECT := mem_range.mp hk
      have hval : (Slot.data k).val d ip.di = ip.di.addr k := if_pos hk'
      have hu := ho.uses (L := All) (lt_of_lt_of_le hk' (Nat.le_add_right _ _)) trivial
        (hval.trans_ne h0)
      rw [hval] at hu
      exact (h.data _ _ _ hu).2
    · rcases hloop : (range NDIRECT).foldlM (truncDirect sb) (d, ip) with msg | ⟨d₁, ip₁⟩ <;> rw [hloop] at hy
      · cases hy
      have h₁ := hdirect.of_ok hloop
      have ho₁ := h₁.toEmptying.isOpen ho
      left
      unfold truncIndirectLog at hy
      dsimp only at hy
      by_cases h0 : ip₁.di.addr NDIRECT = 0
      · rw [if_pos h0] at hy
        cases hy
      rw [if_neg h0] at hy
      rcases mem_append.mp hy with hy | hy
      · refine bfreeLog_of_lt hone (fun b hb hb0 => ?_) y hy
        obtain ⟨j, hj, rfl⟩ := mem_map.mp hb
        have hj' : j < NINDIRECT := mem_range.mp hj
        have hval : (Slot.data (NDIRECT + j)).val d₁ ip₁.di = word (d₁ (ip₁.di.addr NDIRECT)) j := by
          show blockAt d₁ ip₁.di (NDIRECT + j) = _
          unfold blockAt
          rw [if_neg (by omega), if_neg h0, Nat.add_sub_cancel_left]
        have hu := ho₁.uses (L := All) (t := .data (NDIRECT + j)) (Nat.add_lt_add_left hj' NDIRECT) trivial
          (hval.trans_ne hb0)
        rw [hval] at hu
        exact (h₁.owned.data _ _ _ hu).2
      · refine bfreeLog_of_lt hone (fun b hb hb0 => ?_) y hy
        rw [mem_singleton.mp hb]
        have hu := ho₁.uses (L := All) (d := d₁) (t := .indirect) trivial trivial h0
        exact (h₁.owned.data _ _ _ hu).2
  · exact .inr (mem_singleton.mp hy)

end Blocks

end Fs

namespace Sys

open Fs (ISys TableInv NoHoles Wf Open)

/-! ### Entries of directories -/

section Dirs

variable {sb : SuperBlock} {d d' : Disk}

/-- The entries of a directory with this content stand for inodes that the disk has. -/
def InRange (sb : SuperBlock) (data : Str) : Prop :=
  ∀ off, DIRENT ∣ off → off + DIRENT ≤ data.length → (Dirent.ofBytes ((data.drop off).take DIRENT)).inum < sb.ninodes

/-- All directories of the disk. -/
def DirsOk (sb : SuperBlock) (d : Disk) : Prop :=
  ∀ i, i < sb.ninodes → (dinode sb d i).type = T_DIR → InRange sb (Fs.content d (dinode sb d i))

/-- An entry is written. -/
theorem InRange.splice {data : Str} {off : Nat} {de : Dirent} (h : InRange sb data) (hoff : DIRENT ∣ off)
    (hle : off ≤ data.length) (hde : de.inum < sb.ninodes) : InRange sb (Xv6.splice data off de.bytes) := by
  intro o ho hend
  rw [Xv6.splice_length hle, de.bytes_length] at hend
  by_cases heq : o = off
  · subst heq
    have hslice : ((Xv6.splice data o de.bytes).drop o).take DIRENT = de.bytes := by
      refine ext_getElem? fun k => ?_
      rcases lt_or_ge k DIRENT with hk | hk
      · rw [getElem?_take_of_lt hk, getElem?_drop, Xv6.getElem?_splice hle, de.bytes_length,
          if_pos (by omega), Nat.add_sub_cancel_left]
      · rw [getElem?_eq_none ((length_take_le _ _).trans hk),
          getElem?_eq_none (by rw [de.bytes_length]; exact hk)]
    rw [hslice, Dirent.ofBytes_bytes_inum]
    exact lt_of_le_of_lt (Nat.mod_le _ _) hde
  · -- the other entries end before this one or start after it
    have hsep : o + DIRENT ≤ off ∨ off + DIRENT ≤ o := by
      obtain ⟨a, rfl⟩ := ho
      obtain ⟨b, rfl⟩ := hoff
      have hab : a ≠ b := fun hab => heq (by rw [hab])
      unfold DIRENT DIRSIZ
      omega
    have hold : o + DIRENT ≤ data.length := by
      rcases hsep with hsep | hsep
      · exact hsep.trans hle
      rcases le_max_iff.mp hend with hend | hend
      · exact hend
      · omega
    have hslice : ((Xv6.splice data off de.bytes).drop o).take DIRENT = (data.drop o).take DIRENT := by
      refine ext_getElem? fun k => ?_
      rcases lt_or_ge k DIRENT with hk | hk
      · rw [getElem?_take_of_lt hk, getElem?_drop, Xv6.getElem?_splice hle, de.bytes_length,
          if_neg (by omega), getElem?_take_of_lt hk, getElem?_drop]
      · rw [getElem?_eq_none ((length_take_le _ _).trans hk),
          getElem?_eq_none ((length_take_le _ _).trans hk)]
    rw [hslice]
    exact h o ho hold

theorem InRange.nil : InRange sb [] := by
  intro off _ hend
  exact absurd hend (by simp [DIRENT])

/-- A call that stores no content and leaves the data blocks alone. -/
theorem DirsOk.keep (h : DirsOk sb d) (hw : Wf sb d) (hhigh : ∀ x, sb.datastart ≤ x → d' x = d x)
    (hkeep : ∀ i, i < sb.ninodes → (dinode sb d' i).size = 0 ∨
      (dinode sb d' i).size = (dinode sb d i).size ∧ (dinode sb d' i).addrs = (dinode sb d i).addrs ∧
        (dinode sb d' i).type = (dinode sb d i).type) : DirsOk sb d' := by
  intro i hi hty
  rcases hkeep i hi with h0 | ⟨hsize, haddrs, htype⟩
  · have hnil : Fs.content d' (dinode sb d' i) = [] :=
      length_eq_zero_iff.mp ((Fs.content_length _ _).trans (by rw [h0]; rfl))
    rw [hnil]
    exact InRange.nil
  · rw [htype] at hty
    have hty0 : (dinode sb d i).type ≠ 0 := by
      rw [hty]
      decide
    have hkept := (Fs.file_kept hw hi hty0 fun t c hu => hhigh c (hw.data i t c hu).1).2
    have hsame : Fs.content d' (dinode sb d' i) = Fs.content d' (dinode sb d i) :=
      Fs.content_congr hsize fun k _ => by
        unfold Fs.byteAt
        rw [show Fs.blockAt d' (dinode sb d' i) (k / BSIZE) = Fs.blockAt d' (dinode sb d i) (k / BSIZE) from
          Fs.Slot.val_addrs haddrs (.data (k / BSIZE))]
    rw [hsame, hkept]
    exact h i hi hty

end Dirs

/-! ### The account -/

/-- What a call has, and what it has logged. -/
structure Ledger where
  /-- References to inodes. -/
  mine : IPtr → Nat
  /-- Inodes that it has locked. -/
  held : Finset IPtr
  /-- Inodes whose blocks may be logged. -/
  inums : Finset Nat
  /-- Blocks of directories that may be logged. -/
  extra : Finset Nat
  /-- Files and processes are still as they were. -/
  home : Prop

namespace Ledger

/-- At the start of a call. -/
def start : Ledger := { mine := fun _ => 0, held := ∅, inums := ∅, extra := ∅, home := True }

def acquire (g : Ledger) (ip : IPtr) : Ledger := { g with mine := update g.mine ip (g.mine ip + 1) }

def lock (g : Ledger) (ip : IPtr) : Ledger := { g with held := insert ip g.held }

/-- A reference and the lock. -/
def take (g : Ledger) (ip : IPtr) : Ledger := (g.acquire ip).lock ip

def unlock (g : Ledger) (ip : IPtr) : Ledger := { g with held := g.held.erase ip }

def pay (g : Ledger) (inums extra : Finset Nat) : Ledger :=
  { g with inums := g.inums ∪ inums, extra := g.extra ∪ extra }

def away (g : Ledger) : Ledger := { g with home := False }

/-- Locked inodes are inodes that the call has references to. -/
def Ok (g : Ledger) : Prop := ∀ e ∈ g.held, 0 < g.mine e

/-- The number of blocks, without the one of the free map. -/
def spent (g : Ledger) : Nat := g.inums.card + g.extra.card

variable {g : Ledger} {ip : IPtr} {i : Nat} {extra : Finset Nat}

theorem acquire_self (g : Ledger) (ip : IPtr) : (g.acquire ip).mine ip = g.mine ip + 1 := update_self ..

theorem acquire_pos (g : Ledger) (ip : IPtr) : 0 < (g.acquire ip).mine ip :=
  lt_of_lt_of_eq (Nat.succ_pos _) (g.acquire_self ip).symm

theorem acquire_of_ne (g : Ledger) {e : IPtr} (h : e ≠ ip) : (g.acquire ip).mine e = g.mine e :=
  update_of_ne h _ _

theorem le_acquire (g : Ledger) (ip e : IPtr) : g.mine e ≤ (g.acquire ip).mine e := by
  by_cases he : e = ip
  · rw [he, acquire_self]
    exact Nat.le_succ _
  · rw [acquire_of_ne g he]

theorem acquire_comm (g : Ledger) (ip ip' : IPtr) : (g.acquire ip).acquire ip' = (g.acquire ip').acquire ip := by
  by_cases he : ip = ip'
  · rw [he]
  · unfold acquire
    simp only [update_of_ne he, update_of_ne (Ne.symm he), update_comm he]

theorem Ok.acquire (h : g.Ok) (ip : IPtr) : (g.acquire ip).Ok := fun e he => lt_of_lt_of_le (h e he) (g.le_acquire ip e)

theorem take_comm (g : Ledger) (ip ip' : IPtr) : (g.take ip).take ip' = (g.take ip').take ip := by
  have hlock : ∀ g : Ledger, (g.lock ip).lock ip' = (g.lock ip').lock ip := fun g => by
    unfold lock
    rw [Finset.insert_comm]
  show (((g.acquire ip).acquire ip').lock ip).lock ip' = (((g.acquire ip').acquire ip).lock ip').lock ip
  rw [hlock, acquire_comm]

theorem Ok.take (h : g.Ok) (ip : IPtr) : (g.take ip).Ok := by
  intro e he
  rcases Finset.mem_insert.mp he with rfl | he
  · exact g.acquire_pos e
  · exact h.acquire ip e he

theorem unlock_of_notMem (h : ip ∉ g.held) : g.unlock ip = g := by
  unfold unlock
  rw [Finset.erase_eq_of_notMem h]

theorem unlock_take (h : ip ∉ g.held) : (g.take ip).unlock ip = g.acquire ip := by
  unfold take lock unlock acquire
  rw [Finset.erase_insert h]

theorem pay_empty (g : Ledger) : g.pay ∅ ∅ = g := by
  unfold pay
  rw [Finset.union_empty, Finset.union_empty]

theorem pay_pay (g : Ledger) (inums extra inums' extra' : Finset Nat) :
    (g.pay inums extra).pay inums' extra' = g.pay (inums ∪ inums') (extra ∪ extra') := by
  unfold pay
  rw [Finset.union_assoc, Finset.union_assoc]

theorem spent_pay (g : Ledger) (inums extra : Finset Nat) :
    (g.pay inums extra).spent ≤ g.spent + inums.card + extra.card := by
  have hi := Finset.card_union_le g.inums inums
  have he := Finset.card_union_le g.extra extra
  unfold spent pay
  dsimp only
  omega

theorem spent_inum (g : Ledger) (i : Nat) : (g.pay {i} ∅).spent ≤ g.spent + 1 := g.spent_pay {i} ∅

theorem spent_extra (g : Ledger) {n : Nat} (h : extra.card ≤ n) :
    (g.pay ∅ extra).spent ≤ g.spent + n := (g.spent_pay ∅ extra).trans (Nat.add_le_add_left h _)

theorem mem_pay (g : Ledger) {inums : Finset Nat} (h : i ∈ inums) : i ∈ (g.pay inums extra).inums :=
  Finset.mem_union_right _ h

theorem mem_of_mem (h : i ∈ g.inums) (inums extra : Finset Nat) : i ∈ (g.pay inums extra).inums :=
  Finset.mem_union_left _ h

end Ledger

open Ledger

/-- The blocks that were logged fit into the reservation. -/
def Bounded (s : DiskKernel) : Prop := s.log.toFinset.card ≤ MAXOPBLOCKS

/-- The state that a ledger is about. -/
structure Fine (sb : SuperBlock) (p : PPtr) (s : DiskKernel) (g : Ledger) : Prop where
  table : TableInv sb s.sys
  noHoles : NoHoles sb s.sys.disk
  dirs : DirsOk sb s.sys.disk
  one : sb.size ≤ BPB
  root : ROOTINO < sb.ninodes
  mine : ∀ e, g.mine e ≤ (s.sys.tab e).ref
  held : ∀ e ∈ g.held, 0 < g.mine e ∧ (s.sys.tab e).valid = true ∧ s.lock e = true
  /-- An inode without links is one of the call's, or somebody else refers to it. -/
  linked : ∀ i, i < sb.ninodes → (dinode sb s.sys.disk i).type ≠ 0 → (dinode sb s.sys.disk i).nlink = 0 →
    i ∈ g.inums ∨ ∃ e, (s.sys.tab e).inum = i ∧ g.mine e < (s.sys.tab e).ref
  home : g.home → (∀ ip, (s.rest.proc p).cwd = some ip → g.mine ip < (s.sys.tab ip).ref) ∧
    ∀ f, (s.rest.file f).ref = 0 → (s.rest.file f).data.type = .none
  log : ∀ b ∈ s.log, b = sb.bmapstart ∨ (∃ i ∈ g.inums, b = sb.iblock i) ∨ b ∈ g.extra
  budget : g.spent < MAXOPBLOCKS

/-- The entries that a call refers to stay those of the same inodes. -/
def Stable (g : Ledger) (s s' : DiskKernel) : Prop :=
  ∀ e, 0 < g.mine e → (s'.sys.tab e).inum = (s.sys.tab e).inum

section Operations

variable {sb : SuperBlock} {p : PPtr} {s s' : DiskKernel} {g : Ledger} {ip : IPtr}

theorem Stable.refl (g : Ledger) (s : DiskKernel) : Stable g s s := fun _ _ => rfl

theorem Stable.trans {s'' : DiskKernel} (h : Stable g s s') (h' : Stable g s' s'') : Stable g s s'' := fun e he =>
  (h' e he).trans (h e he)

theorem Stable.of_acquire (h : Stable (g.acquire ip) s s') : Stable g s s' := fun e he =>
  h e (he.trans_le (g.le_acquire ip e))

/-- A list of blocks that a ledger accounts for. -/
theorem bounded_of_log (sb : SuperBlock) (hb : g.spent < MAXOPBLOCKS)
    (hlog : ∀ b ∈ s.log, b = sb.bmapstart ∨ (∃ i ∈ g.inums, b = sb.iblock i) ∨ b ∈ g.extra) : Bounded s := by
  have hsub : s.log.toFinset ⊆ insert sb.bmapstart (g.inums.image sb.iblock ∪ g.extra) := by
    intro b hmem
    rw [Finset.mem_insert, Finset.mem_union, Finset.mem_image]
    rcases hlog b (mem_toFinset.mp hmem) with hb | ⟨i, hi, hb⟩ | hb
    · exact .inl hb
    · exact .inr (.inl ⟨i, hi, hb.symm⟩)
    · exact .inr (.inr hb)
  have himage : (g.inums.image sb.iblock).card ≤ g.inums.card := Finset.card_image_le
  unfold spent at hb
  calc s.log.toFinset.card
      ≤ (insert sb.bmapstart (g.inums.image sb.iblock ∪ g.extra)).card := Finset.card_le_card hsub
    _ ≤ (g.inums.image sb.iblock ∪ g.extra).card + 1 := Finset.card_insert_le _ _
    _ ≤ (g.inums.image sb.iblock).card + g.extra.card + 1 := Nat.succ_le_succ (Finset.card_union_le _ _)
    _ ≤ MAXOPBLOCKS := by omega

theorem Fine.bounded (h : Fine sb p s g) : Bounded s := bounded_of_log sb h.budget h.log

/-! ### Runs within the reservation -/

/-- In all states that the program goes through, what was logged fits into the reservation, and if the
program comes to its end, then with a result and in a state of which `Q` holds. -/
def Within {α : Type} (sb : SuperBlock) (p : PPtr) (c : FsProg α) (s : DiskKernel) (Q : α → DiskKernel → Prop) : Prop :=
  c.wp (Prog.Throughout Bounded (performDisk sb p)) s Q

namespace Within

variable {α β : Type} {c : FsProg α} {Q : α → DiskKernel → Prop} {o : FsOp}

theorem pure {a : α} (h : Q a s) : Within sb p (Pure.pure a) s Q := h

theorem panic (msg : String) : Within sb p (Sys.panic msg) s Q := by
  intro s' r ho
  cases r

theorem seq {f : α → FsProg β} {R : β → DiskKernel → Prop} (h : Within sb p c s Q)
    (hf : ∀ a s', Q a s' → Within sb p (f a) s' R) : Within sb p (c >>= f) s R := by
  unfold Within
  rw [Prog.wp_bind]
  exact Prog.wp_mono (Prog.throughout_mono _ _) h hf

theorem mono {R : α → DiskKernel → Prop} (h : Within sb p c s Q) (hR : ∀ a s', Q a s' → R a s') : Within sb p c s R :=
  Prog.wp_mono (Prog.throughout_mono _ _) h hR

theorem op {Q : o.Resp → DiskKernel → Prop}
    (h : ∀ s' r, performDisk sb p s o = .ok (s', r) → Bounded s' ∧ Q r s') : Within sb p (issue o) s Q := h

/-- An operation that leads to a state with a ledger. -/
theorem fine {G : o.Resp → Ledger} {X : o.Resp → DiskKernel → Prop}
    (h : ∀ s' r, performDisk sb p s o = .ok (s', r) → Fine sb p s' (G r) ∧ X r s') :
    Within sb p (issue o) s fun r s' => Fine sb p s' (G r) ∧ X r s' := fun s' r ho => ⟨(h s' r ho).1.bounded, h s' r ho⟩

end Within

open Within

namespace Fine

section

variable (h : Fine sb p s g)

include h

theorem wf : Wf sb s.sys.disk := h.table.owned.wf h.table.layout h.noHoles

theorem ok : g.Ok := fun e he => (h.held e he).1

theorem pos {e : IPtr} (he : 0 < g.mine e) : 0 < (s.sys.tab e).ref := lt_of_lt_of_le he (h.mine e)

section

variable (hip : ip ∈ g.held)

include hip

theorem ref_pos : 0 < (s.sys.tab ip).ref := h.pos (h.held ip hip).1

/-- The inode that the call has locked. -/
theorem isOpen : Open sb (dinode sb s.sys.disk) (s.sys.inode ip) :=
  h.table.isOpen (h.ref_pos hip) (h.held ip hip).2.1

theorem cur : (s.sys.tab ip).mem = dinode sb s.sys.disk (s.sys.tab ip).inum ∧ (s.sys.tab ip).mem.type ≠ 0 :=
  h.table.cur ip (h.ref_pos hip) (h.held ip hip).2.1

theorem filled : Fs.Filled s.sys.disk (s.sys.tab ip).mem := by
  obtain ⟨hmem, hty⟩ := h.cur hip
  rw [hmem] at hty ⊢
  exact h.noHoles _ (h.table.lt ip (h.ref_pos hip)) hty

end

end

variable {extra : Finset Nat}

section

variable (h : Fine sb p s g)

include h

/-- A larger account. -/
theorem pay {inums : Finset Nat} (hb : g.spent + inums.card + extra.card < MAXOPBLOCKS) :
    Fine sb p s (g.pay inums extra) := by
  refine ⟨h.table, h.noHoles, h.dirs, h.one, h.root, h.mine, h.held, fun i hi hty hn => ?_, h.home, fun b hb => ?_,
    lt_of_le_of_lt (g.spent_pay inums extra) hb⟩
  · rcases h.linked i hi hty hn with hmem | hother
    · exact .inl (Finset.mem_union_left _ hmem)
    · exact .inr hother
  · rcases h.log b hb with hb | ⟨i, hi, hb⟩ | hb
    · exact .inl hb
    · exact .inr (.inl ⟨i, Finset.mem_union_left _ hi, hb⟩)
    · exact .inr (.inr (Finset.mem_union_left _ hb))

/-- Room for the block of one inode more. -/
theorem payInum (i : Nat) (hb : g.spent + 1 < MAXOPBLOCKS) : Fine sb p s (g.pay {i} ∅) := h.pay hb

theorem away : Fine sb p s g.away := { h with home := fun hf => hf.elim }

/-- An operation on files or processes. -/
theorem other {o : FsOp} (hrest : o.onInodes = false) :
    Within sb p (issue o) s fun r s' => Fine sb p s' g.away ∧
      s'.sys = s.sys ∧ perform p (s.hints.headD false) s.rest o = .ok (s'.rest, r) := by
  refine fine fun s' r ho => ?_
  obtain ⟨k, hk, rfl⟩ := performDisk_rest hrest ho
  exact ⟨⟨h.table, h.noHoles, h.dirs, h.one, h.root, h.mine, h.held, h.linked, fun hf => hf.elim, h.log, h.budget⟩, rfl, hk⟩

/-- The current directory, to which somebody refers. -/
theorem cwd (hhome : g.home) :
    Within sb p (issue .cwd) s fun ip s' => Fine sb p s' g ∧ s'.sys = s.sys ∧ g.mine ip < (s.sys.tab ip).ref := by
  refine fine fun s' ip ho => ?_
  obtain ⟨k, hk, rfl⟩ := performDisk_rest rfl ho
  rw [perform] at hk
  rcases hcwd : (s.rest.proc p).cwd with - | q <;> rw [hcwd] at hk
  · cases hk
  · obtain ⟨rfl, rfl⟩ := mk.inj (ok.inj hk)
    exact ⟨⟨h.table, h.noHoles, h.dirs, h.one, h.root, h.mine, h.held, h.linked, h.home, h.log, h.budget⟩, rfl,
      (h.home hhome).1 q hcwd⟩

/-- A reference that was not the call's becomes its own. -/
theorem adopt (hlt : g.mine ip < (s.sys.tab ip).ref) (hmem : (s.sys.tab ip).inum ∈ g.inums) :
    Fine sb p s (g.away.acquire ip) := by
  refine ⟨h.table, h.noHoles, h.dirs, h.one, h.root, fun e => ?_, fun e he => ?_, fun i hi hty hn => ?_,
    fun hf => hf.elim, h.log, h.budget⟩
  · by_cases he : e = ip
    · rw [he, acquire_self]
      exact hlt
    · rw [acquire_of_ne _ he]
      exact h.mine e
  · obtain ⟨hpos, hvl⟩ := h.held e he
    exact ⟨lt_of_lt_of_le hpos (g.away.le_acquire ip e), hvl⟩
  · rcases h.linked i hi hty hn with hi' | ⟨e, hinum, he⟩
    · exact .inl hi'
    by_cases heip : e = ip
    · rw [heip] at hinum
      exact .inl (hinum ▸ hmem)
    · refine .inr ⟨e, hinum, ?_⟩
      rw [acquire_of_ne _ heip]
      exact he

/-- An operation that changes nothing but a lock. -/
theorem setLock (ip : IPtr) (b : Bool) : Fine sb p (s.setLock ip b) (g.unlock ip) := by
  refine ⟨h.table, h.noHoles, h.dirs, h.one, h.root, h.mine, fun e he => ?_, h.linked, h.home, h.log, h.budget⟩
  obtain ⟨hne, hmem⟩ := Finset.mem_erase.mp he
  obtain ⟨hpos, hvalid, hlock⟩ := h.held e hmem
  refine ⟨hpos, hvalid, ?_⟩
  show update s.lock ip b e = true
  rw [update_of_ne hne]
  exact hlock

/-- The lock of an inode that the call refers to. -/
theorem locked (hnot : ip ∉ g.held) (hip : 0 < g.mine ip) (hvalid : (s.sys.tab ip).valid = true) :
    Fine sb p (s.setLock ip true) (g.lock ip) := by
  have hset := h.setLock ip true
  rw [unlock_of_notMem hnot] at hset
  refine { hset with held := fun e he => ?_ }
  by_cases heip : e = ip
  · rw [heip]
    exact ⟨hip, hvalid, update_self ..⟩
  · exact hset.held e ((Finset.mem_insert.mp he).resolve_left heip)

theorem iunlock (ip : IPtr) :
    Within sb p (issue (.iunlock ip)) s fun _ s' => Fine sb p s' (g.unlock ip) ∧ s'.sys = s.sys := by
  refine fine fun s' _ ho => ?_
  rw [performDisk] at ho
  split at ho
  · cases ho
  · obtain rfl : s.setLock ip false = s' := (mk.inj (ok.inj ho)).1
    exact ⟨h.setLock ip false, rfl⟩

end

variable {i : Nat}

/-- Another reference to an entry that is in use. -/
theorem got (h : Fine sb p s g) (hi : i < sb.ninodes) {tab : Table DInode} (hgot : s.sys.tab.Got i ip tab) :
    Fine sb p (s.setSys { s.sys with tab := tab }) (g.acquire ip) ∧ Stable g s (s.setSys { s.sys with tab := tab }) := by
  have href : ∀ e, g.mine e < (s.sys.tab e).ref → (g.acquire ip).mine e < (tab e).ref := by
    intro e he
    rw [hgot.ref]
    by_cases hip : e = ip
    · rw [hip, acquire_self, if_pos rfl]
      rw [hip] at he
      omega
    · rw [acquire_of_ne g hip, if_neg hip]
      exact he
  refine ⟨⟨h.table.got hi hgot, h.noHoles, h.dirs, h.one, h.root, fun e => ?_, fun e he => ?_, fun j hj hty hn => ?_,
    fun hg => ⟨fun q hq => href q ((h.home hg).1 q hq), (h.home hg).2⟩, h.log, h.budget⟩,
    fun e he => (hgot.keeps (h.pos he)).1⟩
  · show (g.acquire ip).mine e ≤ (tab e).ref
    have hm := h.mine e
    rw [hgot.ref]
    by_cases hip : e = ip
    · rw [hip, acquire_self, if_pos rfl]
      rw [hip] at hm
      omega
    · rw [acquire_of_ne g hip, if_neg hip]
      exact hm
  · obtain ⟨hpos, hvalid, hlock⟩ := h.held e he
    refine ⟨hpos.trans_le (g.le_acquire ip e), ?_, hlock⟩
    show (tab e).valid = true
    rw [(hgot.keeps (h.pos hpos)).2.1]
    exact hvalid
  · rcases h.linked j hj hty hn with hmem | ⟨e, hinum, hlt⟩
    · exact .inl hmem
    refine .inr ⟨e, ?_, href e hlt⟩
    show (tab e).inum = j
    rw [(hgot.keeps (Nat.zero_lt_of_lt hlt)).1]
    exact hinum

theorem iget (h : Fine sb p s g) (hi : i < sb.ninodes) :
    Within sb p (issue (.iget i)) s fun ip s' =>
      Fine sb p s' (g.acquire ip) ∧ Stable g s s' ∧ (s'.sys.tab ip).inum = i := by
  refine fine fun s' ip ho => ?_
  rw [performDisk] at ho
  rcases hget : s.sys.tab.iget i with msg | ⟨e, tab⟩ <;> rw [hget] at ho
  · cases ho
  · obtain ⟨rfl, rfl⟩ : s.setSys { s.sys with tab := tab } = s' ∧ e = ip := mk.inj (ok.inj ho)
    have hgot := (Table.iget_spec s.sys.tab i).of_ok hget
    exact ⟨(h.got hi hgot).1, (h.got hi hgot).2, hgot.entry.1⟩

theorem idup (h : Fine sb p s g) (href : 0 < (s.sys.tab ip).ref) :
    Within sb p (issue (.idup ip)) s fun _ s' => Fine sb p s' (g.acquire ip) ∧ Stable g s s' := by
  refine fine fun s' _ ho => ?_
  obtain rfl : s.setEntry ip (s.sys.tab ip).dup = s' := (mk.inj (ok.inj ho)).1
  exact h.got (h.table.lt ip href) (Table.Got.hit ip href rfl)

variable {d : Disk} {bs : List Nat}

/-- One entry and the disk are changed, apart from what the entry refers to and how often. -/
theorem change (h : Fine sb p s g) {t : Entry DInode} {held : Finset IPtr}
    (htable : TableInv sb (s.sys.set d ip t)) (hn : NoHoles sb d) (hd : DirsOk sb d)
    (ht : t.ref = (s.sys.tab ip).ref ∧ t.inum = (s.sys.tab ip).inum)
    (hheld : ∀ e ∈ held, e ∈ g.held ∧ (e = ip → t.valid = true))
    (hdin : ∀ i, i < sb.ninodes → dinode sb d i = dinode sb s.sys.disk i ∨ i = (s.sys.tab ip).inum ∧ i ∈ g.inums)
    (hlog : ∀ b ∈ bs, b = sb.bmapstart ∨ (∃ i ∈ g.inums, b = sb.iblock i) ∨ b ∈ extra)
    (hb : g.spent + extra.card < MAXOPBLOCKS) :
    Fine sb p { s with sys := s.sys.set d ip t, log := s.log ++ bs } { g.pay ∅ extra with held := held } ∧
      Stable g s { s with sys := s.sys.set d ip t, log := s.log ++ bs } := by
  have htab : ∀ e, ((s.sys.set d ip t).tab e).ref = (s.sys.tab e).ref ∧
      ((s.sys.set d ip t).tab e).inum = (s.sys.tab e).inum := by
    intro e
    by_cases he : e = ip
    · rw [he, ISys.set_self]
      exact ht
    · rw [ISys.set_of_ne _ _ _ he]
      exact ⟨rfl, rfl⟩
  have hpay : Fine sb p s (g.pay ∅ extra) := h.pay (by rw [Finset.card_empty]; exact hb)
  refine ⟨⟨htable, hn, hd, h.one, h.root, fun e => ?_, fun e he => ?_, fun i hi hty hn => ?_,
    fun hg => ⟨fun q hq => ?_, (h.home hg).2⟩, fun b hb => ?_, hpay.budget⟩, fun e _ => (htab e).2⟩
  · exact (h.mine e).trans_eq (htab e).1.symm
  · obtain ⟨hmem, hvalid⟩ := hheld e he
    obtain ⟨hpos, hv, hl⟩ := h.held e hmem
    refine ⟨hpos, ?_, hl⟩
    by_cases heip : e = ip
    · rw [heip, ISys.set_self]
      exact hvalid heip
    · rw [ISys.set_of_ne _ _ _ heip]
      exact hv
  · rcases hdin i hi with hsame | ⟨-, hmem⟩
    · have hty' : (dinode sb s.sys.disk i).type ≠ 0 := hsame ▸ hty
      have hn' : (dinode sb s.sys.disk i).nlink = 0 := hsame ▸ hn
      rcases hpay.linked i hi hty' hn' with hmem | ⟨e, hinum, hlt⟩
      · exact .inl hmem
      · exact .inr ⟨e, (htab e).2.trans hinum, hlt.trans_eq (htab e).1.symm⟩
    · exact .inl (Finset.mem_union_left _ hmem)
  · exact ((h.home hg).1 q hq).trans_eq (htab q).1.symm
  · rcases mem_append.mp hb with hb | hb
    · exact hpay.log b hb
    rcases hlog b hb with hb | ⟨i, hi, hb⟩ | hb
    · exact .inl hb
    · exact .inr (.inl ⟨i, Finset.mem_union_left _ hi, hb⟩)
    · exact .inr (.inr (Finset.mem_union_right _ hb))

/-- The lock of an inode, which is read from disk if necessary. -/
theorem ilock (h : Fine sb p s (g.acquire ip)) :
    Within sb p (issue (.ilock ip)) s fun _ s' =>
      Fine sb p s' (g.take ip) ∧ ip ∉ g.held ∧ Stable (g.acquire ip) s s' := by
  have hpos : 0 < (s.sys.tab ip).ref := h.pos (g.acquire_pos ip)
  refine fine fun s' _ ho => ?_
  rw [performDisk] at ho
  have hlock : s.lock ip = false := by
    by_contra hne
    rw [Bool.not_eq_false] at hne
    rw [if_pos hne] at ho
    cases ho
  have hnot : ip ∉ g.held := fun hmem => by
    rw [(h.held ip hmem).2.2] at hlock
    cases hlock
  rw [hlock] at ho
  rcases hil : Fs.ilock sb s.sys ip with msg | sys <;> rw [hil] at ho
  · cases ho
  obtain rfl : (s.setSys sys).setLock ip true = s' := (mk.inj (ok.inj ho)).1
  obtain ⟨htable, -⟩ := (Fs.ilock_spec h.table hpos).of_ok hil
  -- the table as it was, apart from the copy of the inode
  obtain ⟨t, rfl, hvalid, ht⟩ : ∃ t, sys = s.sys.set s.sys.disk ip t ∧ t.valid = true ∧
      t.ref = (s.sys.tab ip).ref ∧ t.inum = (s.sys.tab ip).inum := by
    unfold Fs.ilock at hil
    rw [if_neg (not_lt.mpr hpos)] at hil
    by_cases hv : (s.sys.tab ip).valid = true
    · rw [if_pos hv] at hil
      obtain rfl := Except.ok.inj hil
      refine ⟨s.sys.tab ip, ?_, hv, rfl, rfl⟩
      unfold ISys.set
      rw [update_eq_self]
    · rw [if_neg hv] at hil
      split at hil
      · cases hil
      · exact ⟨_, (Except.ok.inj hil).symm, rfl, rfl, rfl⟩
  have hb : (g.acquire ip).spent + (∅ : Finset Nat).card < MAXOPBLOCKS := h.budget
  have hnone : ∀ b ∈ ([] : List Nat), b = sb.bmapstart ∨ (∃ i ∈ (g.acquire ip).inums, b = sb.iblock i) ∨ b ∈ (∅ : Finset Nat) := by
    simp
  have hch := h.change htable h.noHoles h.dirs ht (fun e he => ⟨he, fun _ => hvalid⟩) (fun i _ => .inl rfl) hnone hb
  rw [pay_empty, append_nil] at hch
  refine ⟨hch.1.locked hnot (g.acquire_pos ip) ?_, hnot, hch.2⟩
  rw [ISys.set_self]
  exact hvalid

theorem ilockNew (h : Fine sb p s (g.acquire ip)) (type : Int16) :
    Within sb p (issue (.ilockNew ip type)) s fun _ s' =>
      Fine sb p s' (g.take ip) ∧ ip ∉ g.held ∧ Stable (g.acquire ip) s s' := h.ilock

/-- A read of a locked inode. -/
theorem readi (h : Fine sb p s g) (hip : ip ∈ g.held) (off n : Nat) :
    Within sb p (issue (.readi ip off n)) s fun bytes s' => s' = s ∧
      bytes = readData (Fs.content s.sys.disk (s.sys.tab ip).mem) (ofNat off).toNat (ofNat n).toNat := by
  refine op fun s' bytes ho => ?_
  have hread : performDisk sb p s (.readi ip (ofNat off).toNat (ofNat n).toNat) = _ :=
    readi_filled (h.filled hip) (.ofNat off) (.ofNat n)
  have hsame : performDisk sb p s (.readi ip off n)
      = performDisk sb p s (.readi ip (UInt32.ofNat off).toNat (UInt32.ofNat n).toNat) := by
    simp only [performDisk, UInt32.ofNat_toNat]
  rw [hsame, hread] at ho
  obtain ⟨rfl, rfl⟩ := mk.inj (ok.inj ho)
  exact ⟨h.bounded, rfl, rfl⟩

/-- The other operations that only look at an inode. -/
theorem look (h : Fine sb p s g) (ip : IPtr) :
    Within sb p (issue (.fields ip)) s (fun f s' => s' = s ∧ f = fieldsOf (s.sys.tab ip).mem) ∧
      Within sb p (issue (.size ip)) s (fun n s' => s' = s ∧ n = (s.sys.tab ip).mem.size.toNat) ∧
      Within sb p (issue (.inum ip)) s fun i s' => s' = s ∧ i = (s.sys.tab ip).inum := by
  refine ⟨?_, ?_, ?_⟩
  all_goals
    refine op fun s' r ho => ?_
    obtain ⟨rfl, rfl⟩ := mk.inj (ok.inj ho)
    exact ⟨h.bounded, rfl, rfl⟩

/-- A locked inode is changed, in memory and on disk. -/
theorem stored (h : Fine sb p s g) (hip : ip ∈ g.held) (hmem : (s.sys.tab ip).inum ∈ g.inums) {di : DInode}
    (htable : TableInv sb (s.sys.set d ip ((s.sys.tab ip).cache di)))
    (hn : NoHoles sb d) (hd : DirsOk sb d)
    (hdin : ∀ i, i < sb.ninodes → i ≠ (s.sys.tab ip).inum → dinode sb d i = dinode sb s.sys.disk i)
    (hlog : ∀ b ∈ bs, b = sb.bmapstart ∨ b = sb.iblock (s.sys.tab ip).inum ∨ b ∈ extra)
    (hb : g.spent + extra.card < MAXOPBLOCKS) :
    Fine sb p (s.store d ip di bs) (g.pay ∅ extra) ∧ Stable g s (s.store d ip di bs) := by
  refine h.change htable hn hd ⟨rfl, rfl⟩ (fun e he => ⟨he, fun _ => (h.held ip hip).2.1⟩) (fun i hi => ?_)
    (fun b hb => ?_) hb
  · by_cases hii : i = (s.sys.tab ip).inum
    · exact .inr ⟨hii, hii ▸ hmem⟩
    · exact .inl (hdin i hi hii)
  · rcases hlog b hb with hb | hb | hb
    · exact .inl hb
    · exact .inr (.inl ⟨_, hmem, hb⟩)
    · exact .inr (.inr hb)

variable {f : IFields}

section

variable (h : Fine sb p s g) (hip : ip ∈ g.held)

include h hip

/-- An assignment to the fields of a locked inode. -/
theorem iupdate (hin : (s.sys.tab ip).inum ∈ g.inums) (hf : f.type = (s.sys.tab ip).mem.type) :
    Within sb p (issue (.iupdate ip f)) s fun _ s' => Fine sb p s' g ∧ Stable g s s' := by
  refine fine fun s' _ ho => ?_
  suffices hst : Fine sb p s' (g.pay ∅ ∅) ∧ Stable g s s' by
    rw [pay_empty] at hst
    exact hst
  obtain ⟨di, hdi⟩ : ∃ di, di = withFields (s.sys.tab ip).mem f := ⟨_, rfl⟩
  obtain rfl : s.store (Fs.iupdate sb s.sys.disk { s.sys.inode ip with di := di }) ip di
      [sb.iblock (s.sys.tab ip).inum] = s' := by
    rw [performDisk, ← hdi] at ho
    exact (mk.inj (ok.inj ho)).1
  obtain ⟨hmem, hty⟩ := h.cur hip
  have hlt := h.table.lt ip (h.ref_pos hip)
  have hl := h.table.layout
  -- the call is an `update`
  have hfields : di = (s.sys.tab ip).mem.setFields f.major f.minor f.nlink := by
    rw [hdi]
    unfold withFields DInode.setFields
    rw [hf]
  have hstep : Fs.istep sb s.sys (.update ip f.major f.minor f.nlink)
      = .ok (s.sys.set (Fs.iupdate sb s.sys.disk { s.sys.inode ip with di := di }) ip ((s.sys.tab ip).cache di)) := by
    rw [Fs.istep, if_pos ⟨h.ref_pos hip, (h.held ip hip).2.1⟩, hfields]
  have htable := Fs.istep_keeps h.table (.update ip f.major f.minor f.nlink)
  have hsolid := Fs.istep_solid h.table h.noHoles (.update ip f.major f.minor f.nlink)
  rw [hstep] at htable hsolid
  have hdin : ∀ i, dinode sb (Fs.iupdate sb s.sys.disk { s.sys.inode ip with di := di }) i
      = if i = (s.sys.tab ip).inum then di else dinode sb s.sys.disk i := fun i => dinode_setDinode sb _ _ _ i
  refine h.stored hip hin htable.1 hsolid.noHoles ?_ (fun i _ hne => by rw [hdin, if_neg hne]) (fun b hb => ?_) h.budget
  · refine h.dirs.keep h.wf (fun x hx => Fs.setDinode_high hl hlt _ (hl.data.trans hx)) fun i hi => .inr ?_
    rw [hdin]
    by_cases hii : i = (s.sys.tab ip).inum
    · rw [if_pos hii, hii, ← hmem, hfields]
      exact ⟨rfl, rfl, rfl⟩
    · rw [if_neg hii]
      exact ⟨rfl, rfl, rfl⟩
  · exact .inr (.inl (mem_singleton.mp hb))

/-- `itrunc` of a locked inode. -/
theorem itrunc (hin : (s.sys.tab ip).inum ∈ g.inums) :
    Within sb p (issue (.itrunc ip)) s fun _ s' =>
      Fine sb p s' g ∧ Stable g s s' ∧ (s'.sys.tab ip).mem = Fs.emptied (s.sys.tab ip).mem := by
  refine fine fun s' _ ho => ?_
  suffices hst : (Fine sb p s' (g.pay ∅ ∅) ∧ Stable g s s') ∧ (s'.sys.tab ip).mem = Fs.emptied (s.sys.tab ip).mem by
    rw [pay_empty] at hst
    exact ⟨hst.1.1, hst.1.2, hst.2⟩
  rw [performDisk] at ho
  rcases hit : Fs.itrunc sb s.sys.disk (s.sys.inode ip) with msg | ⟨d, x⟩ <;> rw [hit] at ho
  · cases ho
  obtain rfl : s.store d ip x.di (Fs.itruncLog sb s.sys.disk (s.sys.inode ip)) = s' :=
    (mk.inj (ok.inj ho)).1
  have hl := h.table.layout
  have ho' := h.isOpen hip
  have htr := (Fs.itrunc_spec hl h.table.owned ho').of_ok hit
  have hstep : Fs.istep sb s.sys (.itrunc ip) = .ok (s.sys.set d ip ((s.sys.tab ip).cache x.di)) := by
    rw [Fs.istep, if_pos ⟨h.ref_pos hip, (h.held ip hip).2.1⟩, hit]
    rfl
  have htable := Fs.istep_keeps h.table (.itrunc ip)
  have hsolid := Fs.istep_solid h.table h.noHoles (.itrunc ip)
  rw [hstep] at htable hsolid
  have hdin : ∀ i, i < sb.ninodes → dinode sb d i
      = if i = (s.sys.tab ip).inum then Fs.emptied (s.sys.tab ip).mem else dinode sb s.sys.disk i := htr.disk
  refine ⟨h.stored hip hin htable.1 hsolid.noHoles ?_ (fun i hi hne => by rw [hdin i hi, if_neg hne])
    (fun b hb => ?_) h.budget, ?_⟩
  · refine h.dirs.keep h.wf htr.high fun i hi => ?_
    rw [hdin i hi]
    by_cases hii : i = (s.sys.tab ip).inum
    · rw [if_pos hii]
      exact .inl rfl
    · rw [if_neg hii]
      exact .inr ⟨rfl, rfl, rfl⟩
  · rcases Fs.itruncLog_of_owned h.one hl h.table.owned ho' b hb with hb | hb
    · exact .inl hb
    · exact .inr (.inl hb)
  · show ((s.sys.set d ip ((s.sys.tab ip).cache x.di)).tab ip).mem = _
    rw [ISys.set_self, show x = _ from htr.inode]
    rfl

/-- An entry is written to a locked directory. -/
theorem writei (hin : (s.sys.tab ip).inum ∈ g.inums) {off : Nat} (hoff : DIRENT ∣ off)
    {de : Dirent} (hde : de.inum < sb.ninodes) (hb : g.spent + 2 < MAXOPBLOCKS) :
    Within sb p (issue (.writei ip off de.bytes)) s fun _ s' =>
      ∃ extra : Finset Nat, extra.card ≤ 2 ∧ Fine sb p s' (g.pay ∅ extra) ∧ Stable g s s' := by
  refine op fun s' r ho => ?_
  suffices hst : ∃ extra : Finset Nat, extra.card ≤ 2 ∧ Fine sb p s' (g.pay ∅ extra) ∧ Stable g s s' by
    obtain ⟨extra, hcard, h', hstable⟩ := hst
    exact ⟨h'.bounded, extra, hcard, h', hstable⟩
  rw [performDisk] at ho
  rcases hwr : Fs.writei sb s.sys.disk (s.sys.inode ip) (fun k => de.bytes[k]?) (.ofNat off) (.ofNat de.bytes.length)
    with msg | ⟨r', d, x⟩ <;> rw [hwr] at ho
  · cases ho
  · obtain rfl : s.store d ip x.di (Fs.writeiLog sb s.sys.disk (s.sys.inode ip) (fun k => de.bytes[k]?) (.ofNat off)
        (.ofNat de.bytes.length)) = s' := (mk.inj (ok.inj ho)).1
    have hoff' : DIRENT ∣ (ofNat off).toNat := by
      obtain ⟨k, rfl⟩ := hoff
      refine ⟨k % 2 ^ 28, ?_⟩
      show 16 * k % 2 ^ 32 = 16 * (k % 2 ^ 28)
      omega
    obtain ⟨hmem, hty⟩ := h.cur hip
    have ho' := h.isOpen hip
    have hstep : Fs.istep sb s.sys (.writei ip (fun k => de.bytes[k]?) (.ofNat off) (.ofNat de.bytes.length))
        = .ok (s.sys.set d ip ((s.sys.tab ip).cache x.di)) := by
      rw [Fs.istep, if_pos ⟨h.ref_pos hip, (h.held ip hip).2.1⟩, hwr]
      rfl
    have htable := Fs.istep_keeps h.table (.writei ip (fun k => de.bytes[k]?) (.ofNat off) (.ofNat de.bytes.length))
    have hsolid := Fs.istep_solid h.table h.noHoles
      (.writei ip (fun k => de.bytes[k]?) (.ofNat off) (.ofNat de.bytes.length))
    rw [hstep] at htable hsolid
    obtain ⟨x₁, b₁, hlog⟩ := Fs.writeiLog_entry h.table.layout h.one de.bytes_length hoff' hwr
    have hcard : ({x₁, b₁} : Finset Nat).card ≤ 2 := Finset.card_le_two
    -- what becomes of the directories
    obtain ⟨hd, hdin⟩ : DirsOk sb d ∧
        ∀ i, i < sb.ninodes → i ≠ (s.sys.tab ip).inum → dinode sb d i = dinode sb s.sys.disk i := by
      by_cases hr : Fs.WriteRange (s.sys.inode ip) (.ofNat off) (.ofNat de.bytes.length)
      · have hn : (ofNat de.bytes.length).toNat = de.bytes.length := by
          rw [de.bytes_length]
          rfl
        obtain ⟨-, hwrote, hcontent⟩ := (Fs.writei_list h.wf ho' hr hn fun k _ => rfl).of_ok hwr
        refine ⟨fun i hi hty' => ?_, fun i hi hne => (hwrote.others i hi hne).1⟩
        by_cases hii : i = (s.sys.tab ip).inum
        · have hx : dinode sb d i = x.di := by
            have hcur := hwrote.cur.cur
            rw [show x.inum = (s.sys.tab ip).inum from hwrote.inum, ← hii] at hcur
            exact hcur
          have hset := (Fs.writei_owned h.table.layout h.table.owned ho' _ _ _).of_ok hwr
          have htype : (dinode sb s.sys.disk i).type = T_DIR := by
            rw [hii, ← hmem, ← show x.di.type = (s.sys.tab ip).mem.type from hset.type, ← hx]
            exact hty'
          have hdata : Fs.content s.sys.disk (s.sys.inode ip).di = Fs.content s.sys.disk (dinode sb s.sys.disk i) := by
            rw [hii, ← hmem]
            rfl
          rw [hx, hcontent, hdata]
          refine (h.dirs i hi htype).splice hoff' ?_ hde
          rw [← hdata, Fs.content_length]
          exact hr.1
        · obtain ⟨hsame, hkept⟩ := hwrote.others i hi hii
          rw [hsame] at hty'
          rw [hkept (by rw [hty']; decide)]
          exact h.dirs i hi hty'
      · rw [Fs.writei_range hr] at hwr
        obtain ⟨-, rfl, rfl⟩ : (-1 : Int) = r' ∧ s.sys.disk = d ∧ s.sys.inode ip = x := by
          simpa using hwr
        exact ⟨h.dirs, fun _ _ _ => rfl⟩
    refine ⟨{x₁, b₁}, hcard, h.stored hip hin htable.1 hsolid.noHoles hd hdin (fun b hb => ?_) (by omega)⟩
    rcases hlog b hb with hb | hb | hb | hb
    · exact .inl hb
    · exact .inr (.inl hb)
    · exact .inr (.inr (by rw [hb]; exact Finset.mem_insert_self _ _))
    · exact .inr (.inr (by rw [hb]; exact Finset.mem_insert_of_mem (Finset.mem_singleton_self _)))

omit hip

/-- The search of `ialloc`. -/
theorem mark (type : Int16) (hb : g.spent + 1 < MAXOPBLOCKS) :
    Within sb p (issue (.mark type)) s fun i s' =>
      Fine sb p s' (g.pay {i} ∅) ∧ i < sb.ninodes ∧ s'.sys.tab = s.sys.tab := by
  refine fine fun s' i ho => ?_
  rw [performDisk] at ho
  rcases hal : Fs.ialloc sb s.sys.disk type with msg | ⟨inum, d⟩ <;> rw [hal] at ho
  · cases ho
  obtain ⟨rfl, rfl⟩ := mk.inj (ok.inj ho)
  unfold Fs.ialloc at hal
  rcases hfree : Fs.freeInode sb s.sys.disk with - | j <;> rw [hfree] at hal
  · cases hal
  obtain ⟨rfl, rfl⟩ := mk.inj (Except.ok.inj hal)
  obtain ⟨hlt, hty⟩ := Fs.freeInode_spec hfree
  have hl := h.table.layout
  have hpay := h.payInum j hb
  have hdin := fun i => dinode_setDinode sb s.sys.disk j (DInode.zero.setType type) i
  have hhigh : ∀ x, sb.datastart ≤ x → setDinode sb s.sys.disk j (DInode.zero.setType type) x = s.sys.disk x :=
    fun x hx => Fs.setDinode_high hl hlt _ (hl.data.trans hx)
  refine ⟨⟨h.table.mark hlt hty type, ?_, ?_, h.one, h.root, h.mine, h.held, fun i hi hty hn => ?_, h.home,
    fun b hb => ?_, hpay.budget⟩, hlt, rfl⟩
  · refine h.noHoles.keep h.table.owned hhigh fun i hi => ?_
    unfold Fs.Keep
    rw [hdin]
    by_cases hij : i = j
    · rw [if_pos hij]
      exact .inl rfl
    · rw [if_neg hij]
      exact .inr ⟨rfl, rfl, Iff.rfl⟩
  · refine h.dirs.keep h.wf hhigh fun i hi => ?_
    rw [hdin]
    by_cases hij : i = j
    · rw [if_pos hij]
      exact .inl rfl
    · rw [if_neg hij]
      exact .inr ⟨rfl, rfl, rfl⟩
  · by_cases hij : i = j
    · exact .inl (g.mem_pay (Finset.mem_singleton.mpr hij))
    · have hsame : dinode sb (setDinode sb s.sys.disk j (DInode.zero.setType type)) i = dinode sb s.sys.disk i := by
        rw [hdin, if_neg hij]
      exact hpay.linked i hi (hsame ▸ hty) (hsame ▸ hn)
  · rcases mem_append.mp hb with hb | hb
    · exact hpay.log b hb
    · exact .inr (.inl ⟨j, g.mem_pay (Finset.mem_singleton_self _), mem_singleton.mp hb⟩)

/-- A locked inode without content is marked free. -/
theorem gone (hip : ip ∈ g.held) (hin : (s.sys.tab ip).inum ∈ g.inums)
    (haddrs : (s.sys.tab ip).mem.addrs = fun _ => 0) (hsize : (s.sys.tab ip).mem.size = 0) (hf : f.type = 0) :
    Within sb p (issue (.iupdate ip f)) s fun _ s₁ =>
      Within sb p (issue (.invalidate ip)) s₁ fun _ s' => Fine sb p s' (g.unlock ip) ∧ Stable g s s' := by
  -- between the two operations the entry does not agree with the disk
  suffices hboth : ∀ s₁ s' : DiskKernel, performDisk sb p s (.iupdate ip f) = .ok (s₁, ()) →
      performDisk sb p s₁ (.invalidate ip) = .ok (s', ()) → Bounded s₁ ∧ Fine sb p s' (g.unlock ip) ∧ Stable g s s' by
    intro s₁ _ ho
    exact ⟨(hboth s₁ _ ho rfl).1, fine fun s' _ ho₁ => (hboth s₁ s' ho ho₁).2⟩
  intro s₁ s' ho ho₁
  suffices hst : Bounded s₁ ∧ Fine sb p s' { g.pay ∅ ∅ with held := g.held.erase ip } ∧ Stable g s s' by
    rw [pay_empty] at hst
    exact hst
  obtain ⟨di, hdi⟩ : ∃ di, di = withFields (s.sys.tab ip).mem f := ⟨_, rfl⟩
  obtain ⟨d, hd⟩ : ∃ d, d = setDinode sb s.sys.disk (s.sys.tab ip).inum di := ⟨_, rfl⟩
  obtain rfl : s.store d ip di [sb.iblock (s.sys.tab ip).inum] = s₁ := by
    rw [performDisk, ← hdi] at ho
    rw [hd]
    exact (mk.inj (ok.inj ho)).1
  have hs' : { s with
      sys := s.sys.set d ip (((s.sys.tab ip).cache di).setValid false)
      log := s.log ++ [sb.iblock (s.sys.tab ip).inum] } = s' := by
    refine Eq.trans ?_ (mk.inj (ok.inj ho₁)).1
    unfold DiskKernel.setEntry DiskKernel.setSys DiskKernel.store
    rw [ISys.set_self]
    unfold ISys.set
    rw [update_idem]
  have hlog : ∀ b ∈ [sb.iblock (s.sys.tab ip).inum],
      b = sb.bmapstart ∨ (∃ i ∈ g.inums, b = sb.iblock i) ∨ b ∈ (∅ : Finset Nat) := fun b hb =>
    .inr (.inl ⟨_, hin, mem_singleton.mp hb⟩)
  obtain ⟨hmem, hty⟩ := h.cur hip
  have hlt := h.table.lt ip (h.ref_pos hip)
  have hl := h.table.layout
  have hdin : ∀ i, dinode sb d i = if i = (s.sys.tab ip).inum then di else dinode sb s.sys.disk i := by
    rw [hd]
    exact fun i => dinode_setDinode sb _ _ _ i
  have hhigh : ∀ x, sb.datastart ≤ x → d x = s.sys.disk x := by
    rw [hd]
    exact fun x hx => Fs.setDinode_high hl hlt _ (hl.data.trans hx)
  have hempty : di.size = 0 := by
    rw [hdi]
    exact hsize
  have hown : Fs.Owned sb d (dinode sb d) Fs.All fun _ => False := by
    rw [hd]
    refine h.table.owned.renew hl hlt di ?_ (.inl (by rw [hdi]; exact hf))
    rintro t c ⟨-, -, -, -, hval, h0⟩
    rw [← hmem, Fs.Slot.val_null haddrs] at hval
    exact h0 hval.symm
  have hkeep : ∀ i, i < sb.ninodes → (dinode sb d i).size = 0 ∨ dinode sb d i = dinode sb s.sys.disk i := by
    intro i _
    rw [hdin]
    by_cases hii : i = (s.sys.tab ip).inum
    · rw [if_pos hii]
      exact .inl hempty
    · rw [if_neg hii]
      exact .inr rfl
  constructor
  · refine bounded_of_log sb h.budget fun b hb => ?_
    rcases mem_append.mp hb with hb | hb
    · exact h.log b hb
    · exact .inr (.inl ⟨_, hin, mem_singleton.mp hb⟩)
  · rw [← hs']
    refine h.change ?_ ?_ ?_ ⟨rfl, rfl⟩ ?_ (fun i hi => ?_) hlog h.budget
    · exact h.table.modify (h.ref_pos hip) rfl hown (fun i _ hne => by rw [hdin, if_neg hne]) (by rintro ⟨⟩)
    · refine h.noHoles.keep h.table.owned hhigh fun i hi => (hkeep i hi).imp id fun hsame => ?_
      rw [hsame]
      exact ⟨rfl, rfl, Iff.rfl⟩
    · refine h.dirs.keep h.wf hhigh fun i hi => (hkeep i hi).imp id fun hsame => ?_
      rw [hsame]
      exact ⟨rfl, rfl, rfl⟩
    · intro e he
      exact ⟨Finset.mem_of_mem_erase he, fun heip => absurd heip (Finset.ne_of_mem_erase he)⟩
    · rw [hdin]
      by_cases hii : i = (s.sys.tab ip).inum
      · exact .inr ⟨hii, hii ▸ hin⟩
      · rw [if_neg hii]
        exact .inl rfl

end

/-- The last step of `iput`. -/
theorem idrop (h : Fine sb p s (g.acquire ip)) (hok : g.Ok) :
    Within sb p (issue (.idrop ip)) s fun _ s' => Fine sb p s' g ∧ Stable g s s' := by
  refine fine fun s' _ ho => ?_
  obtain rfl : s.setEntry ip (s.sys.tab ip).drop = s' := (mk.inj (ok.inj ho)).1
  have hpos : 0 < (s.sys.tab ip).ref := h.pos (g.acquire_pos ip)
  obtain ⟨tab, htab⟩ : ∃ tab, tab = update s.sys.tab ip (s.sys.tab ip).drop := ⟨_, rfl⟩
  have hsame : ∀ e, (tab e).inum = (s.sys.tab e).inum ∧ (tab e).valid = (s.sys.tab e).valid := by
    intro e
    rw [htab]
    by_cases he : e = ip
    · rw [he, update_self]
      exact ⟨rfl, rfl⟩
    · rw [update_of_ne he]
      exact ⟨rfl, rfl⟩
  -- what the call has less, the entry has less
  have href : ∀ e n, (g.acquire ip).mine e + n ≤ (s.sys.tab e).ref → g.mine e + n ≤ (tab e).ref := by
    intro e n hle
    rw [htab]
    by_cases he : e = ip
    · rw [he, acquire_self] at hle
      rw [he, update_self]
      show g.mine ip + n ≤ (s.sys.tab ip).ref - 1
      omega
    · rw [acquire_of_ne g he] at hle
      rw [update_of_ne he]
      exact hle
  have htable : TableInv sb { s.sys with tab := tab } := by
    rw [htab]
    exact h.table.modify hpos rfl h.table.owned (fun _ _ _ => rfl) fun hv => h.table.cur ip hpos hv
  have hs : s.setEntry ip (s.sys.tab ip).drop = s.setSys { s.sys with tab := tab } := by
    rw [htab]
    rfl
  rw [hs]
  refine ⟨⟨htable, h.noHoles, h.dirs, h.one, h.root, fun e => href e 0 (h.mine e), fun e he => ?_, fun i hi hty hn => ?_,
    fun hg => ⟨fun q hq => href q 1 ((h.home hg).1 q hq), (h.home hg).2⟩, h.log, h.budget⟩, fun e _ => (hsame e).1⟩
  · obtain ⟨-, hvalid, hlock⟩ := h.held e he
    exact ⟨hok e he, (hsame e).2.trans hvalid, hlock⟩
  · rcases h.linked i hi hty hn with hmem | ⟨e, hinum, hlt⟩
    · exact .inl hmem
    · exact .inr ⟨e, (hsame e).1.trans hinum, href e 1 hlt⟩

end Fine

end Operations

end Sys

end Xv6
