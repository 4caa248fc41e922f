/-
Xv6/FsRun.lean

System calls on a disk.

The programs of SysFile.lean run here on blocks: the table of inodes caches
dinodes (Itable.lean), and `readi`, `writei`, `itrunc` and `ialloc` are the functions of Fs.lean.
Files and processes are those of Kernel.lean; what the rest of the kernel decides is an
argument, `hints`.

The machine also writes down which blocks `log_write` is called for.  The functions named `…Log`
say it for one call of a function of Fs.lean: they follow its text, one entry for each call of
`log_write`.
-/
import Xv6.Kernel

namespace Xv6

open Function UInt32

namespace Fs

variable (sb : SuperBlock)

/-! ### The blocks that are logged -/

/-- `balloc` marks the block in the free map and zeroes it. -/
def ballocLog (d : Disk) : List Nat :=
  match balloc sb d with
  | .ok (b, _) => [sb.bblock b, b]
  | .error _ => []

def addrOrAllocLog (d : Disk) (ip : Inode) (k : Nat) : List Nat :=
  if ip.di.addr k = 0 then ballocLog sb d else []

def bmapLog (d : Disk) (ip : Inode) (bn : Nat) : List Nat :=
  if bn < NDIRECT then addrOrAllocLog sb d ip bn
  else if bn - NDIRECT < NINDIRECT then
    addrOrAllocLog sb d ip NDIRECT ++
      match addrOrAlloc sb d ip NDIRECT with
      | .ok (ind, d, _) => if word (d ind) (bn - NDIRECT) = 0 then ballocLog sb d ++ [ind] else []
      | .error _ => []
  else []

/-- The blocks of the free map for block numbers that are freed. -/
def bfreeLog (bs : List Nat) : List Nat := (bs.filter (· ≠ 0)).map sb.bblock

def iupdateLog (ip : Inode) : List Nat := [sb.iblock ip.inum]

def truncIndirectLog (d : Disk) (ip : Inode) : List Nat :=
  let ind := ip.di.addr NDIRECT
  if ind = 0 then []
  else bfreeLog sb ((List.range NINDIRECT).map (word (d ind))) ++ bfreeLog sb [ind]

def itruncLog (d : Disk) (ip : Inode) : List Nat :=
  bfreeLog sb ((List.range NDIRECT).map ip.di.addr) ++
    (match (List.range NDIRECT).foldlM (truncDirect sb) (d, ip) with
      | .ok (d, ip) => truncIndirectLog sb d ip
      | .error _ => []) ++
    iupdateLog sb ip

/-- A chunk that cannot be copied whole is not logged. -/
def writeLoopLog (src : Nat → Option UInt8) (n : Nat) : Nat → Disk → Inode → Nat → Nat → List Nat
  | 0, _, _, _, _ => []
  | fuel + 1, d, ip, tot, off =>
    if tot < n then
      bmapLog sb d ip (off / BSIZE) ++
        match bmap sb d ip (off / BSIZE) with
        | .ok (b, d, ip) =>
          let m := min (n - tot) (BSIZE - off % BSIZE)
          let bytes := copyin src tot m
          let d := update d b ((d b).patch (off % BSIZE) bytes)
          if bytes.length < m then [] else b :: writeLoopLog src n fuel d ip (tot + m) (off + m)
        | .error _ => []
    else []

def writeiLog (d : Disk) (ip : Inode) (src : Nat → Option UInt8) (off n : UInt32) : List Nat :=
  if off > ip.di.size ∨ off + n < off then []
  else if (off + n).toNat > MAXFILE * BSIZE then []
  else writeLoopLog sb src n.toNat n.toNat d ip 0 off.toNat ++ iupdateLog sb ip

/-- `readi` logs what `bmap` does. -/
def readLoopLog (dst : Nat → Bool) (n : Nat) : Nat → Disk → Inode → Nat → Nat → List Nat
  | 0, _, _, _, _ => []
  | fuel + 1, d, ip, tot, off =>
    if tot < n then
      bmapLog sb d ip (off / BSIZE) ++
        match bmap sb d ip (off / BSIZE) with
        | .ok (b, d, ip) =>
          let m := min (n - tot) (BSIZE - off % BSIZE)
          let bytes := copyout dst tot ((d b).slice (off % BSIZE) m)
          if bytes.length < m then [] else readLoopLog dst n fuel d ip (tot + m) (off + m)
        | .error _ => []
    else []

def readiLog (d : Disk) (ip : Inode) (dst : Nat → Bool) (off n : UInt32) : List Nat :=
  if off > ip.di.size ∨ off + n < off then []
  else
    let n := if off + n > ip.di.size then ip.di.size - off else n
    readLoopLog sb dst n.toNat n.toNat d ip 0 off.toNat

/-! ### Reading logs nothing -/

section Read

variable {sb} {d : Disk} {ip : Inode} {dst : Nat → Bool}

/-- A block that the file has. -/
theorem bmapLog_old {bn : Nat} (hbn : bn < MAXFILE) (h0 : blockAt d ip.di bn ≠ 0) : bmapLog sb d ip bn = [] := by
  unfold blockAt at h0
  unfold bmapLog addrOrAllocLog
  by_cases hd : bn < NDIRECT
  · rw [if_pos hd] at h0
    rw [if_pos hd, if_neg h0]
  have hj : bn - NDIRECT < NINDIRECT := Nat.sub_lt_left_of_lt_add (by omega) hbn
  rw [if_neg hd] at h0
  by_cases hi : ip.di.addr NDIRECT = 0
  · rw [if_pos hi] at h0
    exact absurd rfl h0
  · rw [if_neg hi] at h0
    rw [if_neg hd, if_pos hj, if_neg hi, addrOrAlloc_old hi]
    simp only [if_neg h0, List.append_nil]

theorem readLoopLog_part {off n : Nat} (hmapped : ∀ k, k < off + n → blockAt d ip.di (k / BSIZE) ≠ 0)
    (hmax : off + n ≤ MAXFILE * BSIZE) (fuel : Nat) {tot : Nat} (hn : tot ≤ n) :
    readLoopLog sb dst n fuel d ip tot (off + tot) = [] := by
  induction fuel generalizing tot with
  | zero => rfl
  | succ fuel ih =>
    rw [readLoopLog]
    by_cases hlt : tot < n
    · have hbn := div_lt_maxfile (show off + tot < MAXFILE * BSIZE by omega)
      have h0 := hmapped (off + tot) (by omega)
      rw [if_pos hlt, bmapLog_old hbn h0, bmap_old hbn h0, List.nil_append]
      dsimp only
      split
      · rfl
      · rw [Nat.add_assoc]
        exact ih (by omega)
    · rw [if_neg hlt]

theorem readiLog_part {off n : UInt32}
    (hmapped : ∀ k, k < off.toNat + n.toNat → k < ip.di.size.toNat → blockAt d ip.di (k / BSIZE) ≠ 0)
    (hmax : ip.di.size.toNat ≤ MAXFILE * BSIZE) : readiLog sb d ip dst off n = [] := by
  unfold readiLog
  split
  · rfl
  next hin =>
    rw [not_or, gt_iff_lt, lt_iff_toNat_lt, add_lt_self_iff] at hin
    obtain ⟨m, hm, hmin⟩ : ∃ m : UInt32, (if off + n > ip.di.size then ip.di.size - off else n) = m ∧
        m.toNat ≤ n.toNat ∧ off.toNat + m.toNat ≤ ip.di.size.toNat := by
      have hadd : (off + n).toNat = off.toNat + n.toNat := by
        rw [UInt32.toNat_add]
        exact Nat.mod_eq_of_lt (by omega)
      refine ⟨_, rfl, ?_⟩
      by_cases hgt : off + n > ip.di.size
      · have hgt' := lt_iff_toNat_lt.mp hgt
        rw [if_pos hgt, UInt32.toNat_sub_of_le _ _ (UInt32.le_iff_toNat_le.mpr (by omega))]
        omega
      · have hgt' := mt lt_iff_toNat_lt.mpr hgt
        rw [if_neg hgt]
        omega
    have hlog : readLoopLog sb dst m.toNat m.toNat d ip 0 (off.toNat + 0) = [] :=
      readLoopLog_part (fun k hk => hmapped k (by omega) (by omega)) (by omega) m.toNat (Nat.zero_le _)
    rw [hm]
    exact hlog

end Read

end Fs

namespace Sys

open Fs (ISys)

/-! ### The machine -/

/-- The kernel on a disk. -/
structure DiskKernel where
  /-- The disk, and the inodes in memory. -/
  sys : ISys
  /-- The inodes that are locked. -/
  lock : IPtr → Bool
  /-- The blocks that `log_write` was called for. -/
  log : List Nat
  /-- The rest: files and processes. -/
  rest : Kernel
  /-- What the rest of the kernel decides next. -/
  hints : List Bool

namespace DiskKernel

def setSys (s : DiskKernel) (sys : ISys) : DiskKernel := { s with sys := sys }

def setLock (s : DiskKernel) (ip : IPtr) (b : Bool) : DiskKernel := { s with lock := update s.lock ip b }

def setEntry (s : DiskKernel) (ip : IPtr) (t : Entry DInode) : DiskKernel :=
  s.setSys (s.sys.set s.sys.disk ip t)

/-- The disk and the copy of an inode have changed, and blocks were logged. -/
def store (s : DiskKernel) (d : Disk) (ip : IPtr) (di : DInode) (bs : List Nat) : DiskKernel :=
  { s with sys := s.sys.set d ip ((s.sys.tab ip).cache di), log := s.log ++ bs }

end DiskKernel

/-- The fields of a dinode that the system calls set. -/
def fieldsOf (di : DInode) : IFields := { type := di.type, major := di.major, minor := di.minor, nlink := di.nlink }

/-- The dinode with these fields. -/
def withFields (di : DInode) (f : IFields) : DInode :=
  { di with type := f.type, major := f.major, minor := f.minor, nlink := f.nlink }

/-- Process `p` carries out an operation. -/
@[simp] def performDisk (sb : SuperBlock) (p : PPtr) (s : DiskKernel) : (o : FsOp) → Outcome (DiskKernel × o.Resp)
  | .iget inum =>
    match s.sys.tab.iget inum with
    | .ok (ip, tab) => .ok (s.setSys { s.sys with tab := tab }, ip)
    | .error msg => .panic msg
  | .idup ip => .ok (s.setEntry ip (s.sys.tab ip).dup, ())
  | .ilock ip | .ilockNew ip _ =>
    if s.lock ip then .blocked
    else
      match Fs.ilock sb s.sys ip with
      | .ok sys => .ok ((s.setSys sys).setLock ip true, ())
      | .error msg => .panic msg
  | .iunlock ip =>
    if s.lock ip = false ∨ (s.sys.tab ip).ref < 1 then .panic "iunlock" else .ok (s.setLock ip false, ())
  | .lastRef ip =>
    if (s.sys.tab ip).ref = 1 ∧ (s.sys.tab ip).valid = true ∧ (s.sys.tab ip).mem.nlink = 0 then
      if s.lock ip then .blocked else .ok (s.setLock ip true, true)
    else .ok (s, false)
  | .invalidate ip => .ok (s.setEntry ip ((s.sys.tab ip).setValid false), ())
  | .idrop ip => .ok (s.setEntry ip (s.sys.tab ip).drop, ())
  | .inum ip => .ok (s, (s.sys.tab ip).inum)
  | .fields ip => .ok (s, fieldsOf (s.sys.tab ip).mem)
  | .size ip => .ok (s, (s.sys.tab ip).mem.size.toNat)
  | .iupdate ip f =>
    let di := withFields (s.sys.tab ip).mem f
    let x : Inode := { s.sys.inode ip with di := di }
    .ok (s.store (Fs.iupdate sb s.sys.disk x) ip di (Fs.iupdateLog sb x), ())
  | .readi ip off n =>
    match Fs.readi sb s.sys.disk (s.sys.inode ip) (fun _ => true) (.ofNat off) (.ofNat n) with
    | .ok (_, bytes, d, x) =>
      .ok (s.store d ip x.di
        (Fs.readiLog sb s.sys.disk (s.sys.inode ip) (fun _ => true) (.ofNat off) (.ofNat n)), bytes)
    | .error msg => .panic msg
  | .writei ip off src =>
    match Fs.writei sb s.sys.disk (s.sys.inode ip) (fun k => src[k]?) (.ofNat off) (.ofNat src.length) with
    | .ok (r, d, x) =>
      .ok (s.store d ip x.di
        (Fs.writeiLog sb s.sys.disk (s.sys.inode ip) (fun k => src[k]?) (.ofNat off) (.ofNat src.length)), r)
    | .error msg => .panic msg
  | .writeUser ip off n src =>
    match Fs.writei sb s.sys.disk (s.sys.inode ip) (fun k => src[k]?) (.ofNat off) (.ofNat n) with
    | .ok (r, d, x) =>
      .ok (s.store d ip x.di
        (Fs.writeiLog sb s.sys.disk (s.sys.inode ip) (fun k => src[k]?) (.ofNat off) (.ofNat n)), r)
    | .error msg => .panic msg
  | .itrunc ip =>
    match Fs.itrunc sb s.sys.disk (s.sys.inode ip) with
    | .ok (d, x) => .ok (s.store d ip x.di (Fs.itruncLog sb s.sys.disk (s.sys.inode ip)), ())
    | .error msg => .panic msg
  | .mark type =>
    match Fs.ialloc sb s.sys.disk type with
    | .ok (inum, d) => .ok ({ s with sys := { s.sys with disk := d }, log := s.log ++ [sb.iblock inum] }, inum)
    | .error msg => .panic msg
  | o =>
    match perform p (s.hints.headD false) s.rest o with
    | .ok (rest, r) => .ok ({ s with rest := rest, hints := s.hints.tail }, r)
    | .blocked => .blocked
    | .panic msg => .panic msg

/-- The operations on inodes. -/
def FsOp.onInodes : FsOp → Bool
  | .iget _ | .idup _ | .ilock _ | .ilockNew _ _ | .iunlock _ | .lastRef _ | .invalidate _ | .idrop _ | .inum _
  | .fields _ | .size _ | .iupdate _ _ | .readi _ _ _ | .writei _ _ _ | .writeUser _ _ _ _ | .itrunc _ | .mark _ => true
  | _ => false

variable {sb : SuperBlock} {p : PPtr} {s : DiskKernel}

/-- The other operations change files and processes only. -/
theorem performDisk_rest {s' : DiskKernel} {o : FsOp} {r : o.Resp}
    (hrest : o.onInodes = false) (ho : performDisk sb p s o = .ok (s', r)) :
    ∃ k, perform p (s.hints.headD false) s.rest o = .ok (k, r) ∧ s' = { s with rest := k, hints := s.hints.tail } := by
  rcases hk : perform p (s.hints.headD false) s.rest o with ⟨k, r'⟩ | - | msg
  all_goals
    cases o
    all_goals first
      | exact Bool.noConfusion hrest
      | simp only [performDisk, hk] at ho
        first
          | obtain ⟨rfl, rfl⟩ := Prod.mk.inj (Outcome.ok.inj ho)
            exact ⟨k, rfl, rfl⟩
          | cases ho

/-! ### Reading -/

section Read

variable {sb : SuperBlock} {p : PPtr} {s : DiskKernel} {ip : IPtr}

theorem DiskKernel.store_self (s : DiskKernel) (ip : IPtr) : s.store s.sys.disk ip (s.sys.tab ip).mem [] = s := by
  have htab : update s.sys.tab ip ((s.sys.tab ip).cache (s.sys.tab ip).mem) = s.sys.tab :=
    update_eq_self ip _
  unfold DiskKernel.store Fs.ISys.set
  rw [htab, List.append_nil]

/-- A read below the end of a file that has the blocks up to there. -/
theorem readi_part {off n : Nat} (hmapped : ∀ k, k < off + n → Fs.blockAt s.sys.disk (s.sys.tab ip).mem (k / BSIZE) ≠ 0)
    (hmax : (s.sys.tab ip).mem.size.toNat ≤ MAXFILE * BSIZE) (hsize : off + n ≤ (s.sys.tab ip).mem.size.toNat) :
    performDisk sb p s (.readi ip off n)
      = .ok (s, ((Fs.content s.sys.disk (s.sys.tab ip).mem).drop off).take n) := by
  have hlim : MAXFILE * BSIZE < 2 ^ 32 := by decide
  have hoff : (ofNat off).toNat = off := toNat_ofNat_of_lt' (show off < 2 ^ 32 by omega)
  have hn : (ofNat n).toNat = n := toNat_ofNat_of_lt' (show n < 2 ^ 32 by omega)
  have hread : Fs.readi sb s.sys.disk (s.sys.inode ip) (fun _ => true) (.ofNat off) (.ofNat n) = _ :=
    Fs.readi_part (by rw [hoff, hn]; exact hmapped) (by rw [hoff, hn]; exact hsize.trans hmax)
      (by rw [hoff, hn]; exact hsize)
  have hlog : Fs.readiLog sb s.sys.disk (s.sys.inode ip) (fun _ => true) (.ofNat off) (.ofNat n) = [] :=
    Fs.readiLog_part (fun k hk _ => hmapped k (by rw [hoff, hn] at hk; exact hk)) hmax
  simp only [performDisk, hread, hlog, hoff, hn]
  exact congrArg (fun s' => Outcome.ok (s', _)) (s.store_self ip)

/-- A read of a file without holes. -/
theorem readi_filled (hf : Fs.Filled s.sys.disk (s.sys.tab ip).mem) (off n : UInt32) :
    performDisk sb p s (.readi ip off.toNat n.toNat)
      = .ok (s, readData (Fs.content s.sys.disk (s.sys.tab ip).mem) off.toNat n.toNat) := by
  have hread : Fs.readi sb s.sys.disk (s.sys.inode ip) (fun _ => true) off n = _ := Fs.readi_spec hf (fun _ => true) off n
  have hlog : Fs.readiLog sb s.sys.disk (s.sys.inode ip) (fun _ => true) off n = [] :=
    Fs.readiLog_part (fun k _ hk => hf.mapped k hk) hf.size
  have hrange : Fs.readRange s.sys.disk (s.sys.inode ip) off n
      = readData (Fs.content s.sys.disk (s.sys.tab ip).mem) off.toNat n.toNat := by
    have hsize : (s.sys.inode ip).di.size = (s.sys.tab ip).mem.size := rfl
    unfold Fs.readRange readData
    rw [Fs.content_length, hsize]
    by_cases hr : off.toNat ≤ (s.sys.tab ip).mem.size.toNat ∧ off.toNat + n.toNat < 2 ^ 32
    · rw [if_pos hr, if_neg (by omega)]
      rfl
    · rw [if_neg hr, if_pos (by omega)]
  rw [Fs.copyout_eq fun _ _ => rfl] at hread
  simp only [performDisk, UInt32.ofNat_toNat, hread, hlog, hrange]
  exact congrArg (fun s' => Outcome.ok (s', _)) (s.store_self ip)

end Read

/-- `ilock` of an inode that was not read yet. -/
theorem ilock_fresh {ip : IPtr} (hlock : s.lock ip = false)
    (href : 0 < (s.sys.tab ip).ref) (hvalid : (s.sys.tab ip).valid = false)
    (hty : (dinode sb s.sys.disk (s.sys.tab ip).inum).type ≠ 0) :
    performDisk sb p s (.ilock ip) = .ok ((s.setEntry ip
      (((s.sys.tab ip).cache (dinode sb s.sys.disk (s.sys.tab ip).inum)).setValid true)).setLock ip true, ()) := by
  have hilock : Fs.ilock sb s.sys ip = .ok (s.sys.set s.sys.disk ip
      (((s.sys.tab ip).cache (dinode sb s.sys.disk (s.sys.tab ip).inum)).setValid true)) := by
    rw [Fs.ilock, if_neg (by omega), hvalid, if_neg Bool.false_ne_true, if_neg hty]
    rfl
  rw [performDisk, hlock, hilock]
  rfl

/-! ### Booting -/

/-- The table of inodes as `userinit` leaves it: the current directory of the first process. -/
def bootTable : Table DInode := fun e => { bootTab e with mem := DInode.zero }

/-- The kernel when the first process starts, on a disk. -/
def bootDisk (d : Disk) : DiskKernel where
  sys := { disk := d, tab := bootTable }
  lock := fun _ => false
  log := []
  rest := boot 0 fun _ => .new 0
  hints := []

end Sys

end Xv6
