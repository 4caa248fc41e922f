/-
Xv6/MkfsBoot.lean

The kernel reads what mkfs wrote.

The two programs share only the format: mkfs appends to inodes with its own code, the
kernel finds blocks with `bmap` and names with `dirlookup`.  `lookup_files` runs `namei` of the kernel on the
finished image and compares what `ilock` and `readi` give with the input files.

The size of the root directory can be larger than the directory (MkfsImage.lean).  The search for
a name that is there stops before it gets to the missing block, so that what `scan` needs is only
that the blocks up to the entry are there.
-/
import Xv6.MkfsImage
import Xv6.FsRun

namespace Xv6.Mkfs

open Function List Prog Dirent

open Sys (T_DIR T_FILE IPtr PPtr DiskKernel performDisk bootDisk)
open Fs (blockAt)

/-! ### Content of the image -/

section Content

variable {s s' : St} {root : List UInt8} {fs : List (Int16 × List UInt8)} (h : Inv s ((T_DIR, root) :: fs))
  (hf : Finished s s' root.length)

include h hf

variable {k : Nat} {e : Int16 × List UInt8}

/-- The bytes of an inode, below the size it had before the rounding. -/
theorem Finished.byteAt (hk : ((T_DIR, root) :: fs)[k]? = some e) {j : Nat}
    (hj : j < e.2.length) : e.2[j]? = some (Fs.byteAt s'.img (Xv6.dinode sb s'.img (k + 1)) j) := by
  have hh := h.holds k e hk
  have hsize : (Xv6.dinode sb (view s) (k + 1)).size.toNat = e.2.length := by
    rw [← Fs.content_length (view s), hh.content]
  have hbn : j / BSIZE < nblk e.2.length := by
    unfold nblk BSIZE
    omega
  have hblock := blockAt_addrs (hf.addrs (k + 1)).1 (hf.indirect h hk) (j / BSIZE)
  have hdata := (hf.mapped h hk hbn).2.1
  rw [← hh.content, Fs.content_getElem? (by rw [hsize]; exact hj)]
  unfold Fs.byteAt
  rw [hf.high (le_trans (by decide) hdata), hblock]

/-- A file of the image. -/
theorem Finished.file (hk : ((T_DIR, root) :: fs)[k]? = some e) (hne : k + 1 ≠ ROOTINO) :
    (Xv6.dinode sb s'.img (k + 1)).type = e.1 ∧ (Xv6.dinode sb s'.img (k + 1)).nlink = 1 ∧
      Fs.content s'.img (Xv6.dinode sb s'.img (k + 1)) = e.2 ∧ Fs.Filled s'.img (Xv6.dinode sb s'.img (k + 1)) := by
  have hh := h.holds k e hk
  have hsame : Xv6.dinode sb s'.img (k + 1) = Xv6.dinode sb (view s) (k + 1) := by rw [hf.dinode, if_neg hne]
  have hsize : (Xv6.dinode sb s'.img (k + 1)).size.toNat = e.2.length := by
    rw [hsame, ← Fs.content_length (view s), hh.content]
  have hkn : k + 1 < NINODES := lt_of_le_of_lt (List.getElem?_eq_some_iff.mp hk).1 h.few
  refine ⟨by rw [hsame]; exact hh.type, by rw [hsame]; exact hh.nlink, ext_getElem? fun j => ?_, ?_, fun j hj => ?_⟩
  · rcases lt_or_ge j e.2.length with hj | hj
    · rw [hf.byteAt h hk hj, Fs.content_getElem? (by rw [hsize]; exact hj)]
    · rw [getElem?_eq_none hj, getElem?_eq_none (by rw [Fs.content_length, hsize]; exact hj)]
  · rw [hsame]
    refine (h.wf.filled (k + 1) hkn ?_).size
    rw [hh.type]
    exact h.type e (mem_of_getElem? hk)
  · refine (hf.mapped h hk ?_).1
    unfold nblk BSIZE
    omega

/-- The root directory is at least as long as its entries. -/
theorem Finished.root_content (hroot : root.length < NDIRECT * BSIZE) :
    (Xv6.dinode sb s'.img ROOTINO).type = T_DIR ∧ root.length ≤ (Xv6.dinode sb s'.img ROOTINO).size.toNat ∧
      (Xv6.dinode sb s'.img ROOTINO).size.toNat ≤ MAXFILE * BSIZE ∧
      ∀ off n, off + n ≤ root.length →
        ((Fs.content s'.img (Xv6.dinode sb s'.img ROOTINO)).drop off).take n = (root.drop off).take n := by
  have hsize := hf.root_size hroot
  have hlow : root.length ≤ rounded root.length := by
    unfold rounded BSIZE
    omega
  have hhigh : rounded root.length ≤ NDIRECT * BSIZE :=
    Nat.mul_le_mul_right _ (Nat.div_lt_of_lt_mul (by rw [mul_comm]; exact hroot))
  refine ⟨?_, by rw [hsize]; exact hlow, by rw [hsize]; exact hhigh.trans (by decide), fun off n hoff => ?_⟩
  · rw [(hf.addrs ROOTINO).2]
    exact (h.holds 0 (T_DIR, root) rfl).type
  refine ext_getElem? fun j => ?_
  rcases lt_or_ge j n with hj | hj
  · have hbyte := hf.byteAt h (k := 0) (e := (T_DIR, root)) rfl (show off + j < root.length by omega)
    rw [getElem?_take_of_lt hj, getElem?_take_of_lt hj, getElem?_drop, getElem?_drop, hbyte]
    exact Fs.content_getElem? (by rw [hsize]; omega)
  · rw [getElem?_eq_none ((length_take_le _ _).trans hj),
      getElem?_eq_none ((length_take_le _ _).trans hj)]

end Content

/-! ### Looking up a name -/

section Lookup

variable {p : PPtr} {d : Disk}

/-- The loop of `dirlookup`, up to the entry that it looks for. -/
theorem scan_finds {s : DiskKernel} {dp : IPtr} {entries : List Dirent} {msg : String} {stop : Dirent → Bool} {size : Nat}
    (hread : ∀ j e, entries[j]? = some e → performDisk sb p s (.readi dp (DIRENT * j) DIRENT) = .ok (s, e.bytes))
    {k : Nat} {e : Dirent} (hk : entries[k]? = some e) (hstop : stop (.ofBytes e.bytes) = true)
    (hbefore : ∀ j e, j < k → entries[j]? = some e → stop (.ofBytes e.bytes) = false) (hsize : DIRENT * k < size)
    (fuel : Nat) {j : Nat} (hj : j ≤ k) (hfuel : k < j + fuel) :
    (Sys.scan dp msg stop size fuel (DIRENT * j)).wp (Prog.Does (performDisk sb p)) s fun r s' =>
      s' = s ∧ r = (DIRENT * k, some (.ofBytes e.bytes)) := by
  induction fuel generalizing j with
  | zero => omega
  | succ fuel ih =>
    have hlt : DIRENT * j < size := lt_of_le_of_lt (Nat.mul_le_mul_left _ hj) hsize
    obtain ⟨e', he'⟩ : ∃ e', entries[j]? = some e' :=
      ⟨_, List.getElem?_eq_getElem (lt_of_le_of_lt hj (List.getElem?_eq_some_iff.mp hk).1)⟩
    rw [Sys.scan, if_pos hlt, wp_bind, Sys.wp_issue]
    refine ⟨s, e'.bytes, hread j e' he', ?_⟩
    dsimp only
    rw [if_neg (show ¬ e'.bytes.length ≠ DIRENT from fun hne => hne e'.bytes_length)]
    rcases Nat.lt_or_eq_of_le hj with hjk | rfl
    · rw [if_neg (by rw [hbefore j e' hjk he']; exact Bool.false_ne_true)]
      exact ih (j := j + 1) hjk (by omega)
    · obtain rfl : e' = e := Option.some.inj (he'.symm.trans hk)
      rw [if_pos hstop]
      exact ⟨rfl, rfl⟩

/-- The entry of the root directory in the table. -/
def rootEntry : IPtr := ⟨0, NINODE_pos⟩

theorem bootTable_ref {e : IPtr} (h : 0 < (Sys.bootTable e).ref) : e = rootEntry := by
  by_contra hne
  have hval : e.val ≠ 0 := fun h0 => hne (Fin.ext h0)
  have href : (Sys.bootTable e).ref = 0 := by
    show (Sys.bootTab e).ref = 0
    unfold Sys.bootTab
    rw [if_neg hval]
  omega

/-- The first `iget` of `namei` finds the current directory of the first process. -/
theorem boot_iget : Sys.bootTable.iget ROOTINO =
    .ok (rootEntry, update Sys.bootTable rootEntry (Sys.bootTable rootEntry).dup) := by
  have hfree : ∃ e, (Sys.bootTable e).ref = 0 := ⟨⟨1, by decide⟩, rfl⟩
  obtain ⟨e, t', hget, hgot⟩ := Table.iget_ok Sys.bootTable ROOTINO hfree
  cases hgot with
  | hit href hinum =>
    rfl
  | recycled href hmiss => exact absurd rfl (hmiss rootEntry Nat.one_pos)

/-- What `dirlookup` needs to know of a directory of the image: its entries, which it reads one by one. -/
structure Lists (d : Disk) (i : Nat) (entries : List Dirent) : Prop where
  type : (dinode sb d i).type = T_DIR
  size : DIRENT * entries.length ≤ (dinode sb d i).size.toNat
  read : ∀ (p : PPtr) (s : DiskKernel) (ip : IPtr), s.sys.disk = d → (s.sys.tab ip).mem = dinode sb d i →
    ∀ j e, entries[j]? = some e → performDisk sb p s (.readi ip (DIRENT * j) DIRENT) = .ok (s, e.bytes)

/-- Entry `k` is the first with this name. -/
structure First (entries : List Dirent) (name : Str) (k : Nat) (e : Dirent) : Prop where
  at_k : entries[k]? = some e
  inum : e.inum % 2 ^ 16 ≠ 0
  same : cut name = cut e.name
  before : ∀ j e', j < k → entries[j]? = some e' → cut name ≠ cut e'.name

variable {i k : Nat} {entries : List Dirent} {name : Str} {e : Dirent} {s : DiskKernel} {dp : IPtr}

/-- `dirlookup` finds an entry. -/
theorem dirlookup_wp (hl : Lists d i entries) (hf : First entries name k e) (hdisk : s.sys.disk = d)
    (hmem : (s.sys.tab dp).mem = dinode sb d i) (hfree : ∃ e, (s.sys.tab e).ref = 0) :
    (Sys.dirlookup dp name).wp (Prog.Does (performDisk sb p)) s fun r s' =>
      ∃ ip tab, Table.Got s.sys.tab (e.inum % 2 ^ 16) ip tab ∧ s' = s.setSys { s.sys with tab := tab } ∧
        r = some (ip, DIRENT * k) := by
  have hlen : k < entries.length := (List.getElem?_eq_some_iff.mp hf.at_k).1
  have hlt : DIRENT * k < (dinode sb d i).size.toNat :=
    lt_of_lt_of_le (Nat.mul_lt_mul_of_pos_left hlen (by decide)) hl.size
  have hpos : k ≤ DIRENT * k := Nat.le_mul_of_pos_left k (by decide)
  have hstop : decide ((ofBytes e.bytes).inum ≠ 0 ∧ namecmp name (ofBytes e.bytes).name = 0) = true := by
    rw [decide_eq_true_eq, ofBytes_bytes_inum, ofBytes_bytes_name, namecmp_eq_zero, cut_strncpy]
    exact ⟨hf.inum, hf.same⟩
  have hbefore : ∀ j e', j < k → entries[j]? = some e' →
      decide ((ofBytes e'.bytes).inum ≠ 0 ∧ namecmp name (ofBytes e'.bytes).name = 0) = false := by
    intro j e' hj he'
    rw [decide_eq_false_iff_not, ofBytes_bytes_name, namecmp_eq_zero, cut_strncpy]
    exact fun hc => hf.before j e' hj he' hc.2
  obtain ⟨ip, tab, hget, hgot⟩ := Table.iget_ok s.sys.tab (e.inum % 2 ^ 16) hfree
  rw [Sys.dirlookup, wp_bind, Sys.wp_issue]
  refine ⟨s, Sys.fieldsOf (s.sys.tab dp).mem, rfl, ?_⟩
  dsimp only
  rw [hmem, if_neg (show ¬ (Sys.fieldsOf (dinode sb d i)).type ≠ T_DIR from fun hne => hne hl.type), wp_bind, Sys.wp_issue]
  refine ⟨s, (s.sys.tab dp).mem.size.toNat, rfl, ?_⟩
  dsimp only
  rw [wp_bind, hmem]
  have hscan : (Sys.scan dp "dirlookup read" (fun de => de.inum ≠ 0 ∧ namecmp name de.name = 0) _ _ (DIRENT * 0)).wp _ s _ :=
    scan_finds (hl.read p s dp hdisk hmem) hf.at_k hstop hbefore hlt (dinode sb d i).size.toNat (Nat.zero_le _) (by omega)
  refine wp_mono (Prog.does_mono _) hscan ?_
  rintro r s' ⟨rfl, rfl⟩
  rw [wp_bind, Sys.wp_issue, ofBytes_bytes_inum]
  refine ⟨s'.setSys { s'.sys with tab := tab }, ip, ?_, ip, tab, hgot, rfl, rfl⟩
  simp only [performDisk, hget]

/-- `iput` of an inode that somebody else refers to. -/
theorem iput_shared {ip : IPtr} (href : 1 < (s.sys.tab ip).ref) {Q : Unit → DiskKernel → Prop}
    (hQ : Q () (s.setEntry ip (s.sys.tab ip).drop)) : (Sys.iput ip).wp (Prog.Does (performDisk sb p)) s Q := by
  refine ⟨s, false, ?_, ?_⟩
  · rw [performDisk, if_neg]
    intro hlast
    omega
  · exact ⟨_, (), rfl, hQ⟩

/-- **`namei` finds an entry of the root directory.** -/
theorem namei_wp (hl : Lists d ROOTINO entries) (hname : IsElem name) (hf : First entries name k e)
    (hroot : e.inum % 2 ^ 16 ≠ ROOTINO) :
    (Sys.namei (slash :: name)).wp (Prog.Does (performDisk sb p)) (bootDisk d) fun r s =>
      ∃ ip, r = some ip ∧ s.sys.disk = d ∧ (s.sys.tab ip).inum = e.inum % 2 ^ 16 ∧ (s.sys.tab ip).ref = 1 ∧
        (s.sys.tab ip).valid = false ∧ s.lock ip = false := by
  have helems : elems (slash :: name) = [name] := by
    have hsnoc : elems ([] ++ slash :: name) = elems [] ++ [name] := elems_snoc hname (by simp)
    exact hsnoc
  -- the table after the first `iget`, and after `ilock`
  obtain ⟨t₁, ht₁⟩ : ∃ t₁, t₁ = update Sys.bootTable rootEntry (Sys.bootTable rootEntry).dup := ⟨_, rfl⟩
  obtain ⟨s₁, hs₁⟩ : ∃ s₁, s₁ = (bootDisk d).setSys { disk := d, tab := t₁ } := ⟨_, rfl⟩
  have ht₁root : t₁ rootEntry = { ref := 2, inum := ROOTINO, valid := false, mem := DInode.zero } := by
    rw [ht₁, update_self]
    rfl
  have ht₁ref : ∀ e, 0 < (t₁ e).ref → e = rootEntry := by
    intro e href
    by_contra hne
    rw [ht₁, update_of_ne hne] at href
    exact hne (bootTable_ref href)
  have hs₁tab : s₁.sys.tab rootEntry = { ref := 2, inum := ROOTINO, valid := false, mem := DInode.zero } := by
    rw [hs₁]
    exact ht₁root
  have hs₁disk : s₁.sys.disk = d := by
    rw [hs₁]
    rfl
  rw [Sys.namei, wp_bind, Sys.namex, if_pos (show (slash :: name).headD 0 = slash from rfl), wp_bind, Sys.wp_issue,
    helems]
  refine ⟨s₁, rootEntry, ?_, ?_⟩
  · rw [performDisk, bootDisk, boot_iget, hs₁, ht₁]
    rfl
  -- `ilock`, and the type
  obtain ⟨s₂, hs₂⟩ : ∃ s₂, s₂ = (s₁.setEntry rootEntry (((s₁.sys.tab rootEntry).cache
    (dinode sb s₁.sys.disk (s₁.sys.tab rootEntry).inum)).setValid true)).setLock rootEntry true := ⟨_, rfl⟩
  have hs₂tab : s₂.sys.tab rootEntry = { ref := 2, inum := ROOTINO, valid := true, mem := dinode sb d ROOTINO } := by
    rw [hs₂, hs₁tab, hs₁disk]
    exact Fs.ISys.set_self ..
  have hs₂other : ∀ e, e ≠ rootEntry → s₂.sys.tab e = t₁ e := by
    intro e hne
    rw [hs₂, hs₁]
    exact Fs.ISys.set_of_ne _ _ _ hne
  have hs₂disk : s₂.sys.disk = d := by
    rw [hs₂]
    exact hs₁disk
  have hs₂lock : s₂.lock = update (fun _ => false) rootEntry true := by
    rw [hs₂, hs₁]
    rfl
  have hlock : performDisk sb p s₁ (.ilock rootEntry) = .ok (s₂, ()) := by
    rw [hs₂]
    refine Sys.ilock_fresh ?_ ?_ ?_ ?_
    · rw [hs₁]
      rfl
    · rw [hs₁tab]
      exact Nat.two_pos
    · rw [hs₁tab]
    · rw [hs₁tab, hs₁disk, hl.type]
      decide
  rw [Sys.namexLoop, wp_bind, Sys.wp_issue]
  refine ⟨s₂, (), hlock, ?_⟩
  dsimp only
  rw [wp_bind, Sys.wp_issue]
  refine ⟨s₂, Sys.fieldsOf (dinode sb d ROOTINO), ?_, ?_⟩
  · rw [performDisk, hs₂tab]
  dsimp only
  rw [if_neg (show ¬ (Sys.fieldsOf (dinode sb d ROOTINO)).type ≠ T_DIR from fun hne => hne hl.type),
    if_neg (show ¬ (false = true ∧ _) from fun hc => Bool.false_ne_true hc.1), wp_bind]
  have hs₂ref : ∀ e, 0 < (s₂.sys.tab e).ref → e = rootEntry := by
    intro e href
    by_contra hne
    rw [hs₂other e hne] at href
    exact hne (ht₁ref e href)
  have hfree : ∃ e, (s₂.sys.tab e).ref = 0 := by
    refine ⟨⟨1, by decide⟩, Nat.eq_zero_of_not_pos fun href => ?_⟩
    exact absurd (hs₂ref _ href) (by decide)
  have hmem : (s₂.sys.tab rootEntry).mem = dinode sb d ROOTINO := by rw [hs₂tab]
  refine wp_mono (Prog.does_mono _) (dirlookup_wp hl hf hs₂disk hmem hfree) ?_
  rintro r s₃ ⟨ip, tab, hgot, hs₃, rfl⟩
  -- the entry that `dirlookup` returns was not in use
  have hgot' : (s₂.sys.tab ip).ref = 0 ∧
      tab = update s₂.sys.tab ip ((s₂.sys.tab ip).recycle (e.inum % 2 ^ 16)) := by
    cases hgot with
    | hit href hinum =>
      obtain rfl := hs₂ref ip href
      rw [hs₂tab] at hinum
      exact absurd hinum.symm hroot
    | recycled href hmiss => exact ⟨href, rfl⟩
  obtain ⟨hunused, htab⟩ := hgot'
  have hne : rootEntry ≠ ip := by
    rintro rfl
    rw [hs₂tab] at hunused
    cases hunused
  have hs₃root : s₃.sys.tab rootEntry = s₂.sys.tab rootEntry := by
    rw [hs₃, htab]
    exact update_of_ne hne _ _
  have hs₃ip : s₃.sys.tab ip = (s₂.sys.tab ip).recycle (e.inum % 2 ^ 16) := by
    rw [hs₃, htab]
    exact update_self ..
  have hs₃lock : s₃.lock = s₂.lock := by
    rw [hs₃]
    rfl
  rw [wp_bind, Sys.iunlockput, wp_bind, Sys.wp_issue]
  refine ⟨s₃.setLock rootEntry false, (), ?_, iput_shared ?_ ?_⟩
  · rw [performDisk, if_neg]
    rw [hs₃root, hs₂tab, hs₃lock, hs₂lock, update_self]
    rintro (hc | hc)
    · cases hc
    · exact absurd hc (not_lt.mpr (Nat.le_succ 1))
  · show 1 < (s₃.sys.tab rootEntry).ref
    rw [hs₃root, hs₂tab]
    exact Nat.lt_succ_self 1
  · have hother : ∀ x, ((s₃.setLock rootEntry false).setEntry rootEntry x).sys.tab ip = s₃.sys.tab ip := fun _ =>
      update_of_ne (Ne.symm hne) _ _
    refine ⟨ip, rfl, ?_, ?_, ?_, ?_, ?_⟩
    · rw [hs₃]
      exact hs₂disk
    · rw [hother, hs₃ip]
      rfl
    · rw [hother, hs₃ip]
      rfl
    · rw [hother, hs₃ip]
      rfl
    · show update s₃.lock rootEntry false ip = false
      rw [update_of_ne (Ne.symm hne), hs₃lock, hs₂lock, update_of_ne (Ne.symm hne)]

end Lookup

/-! ### The files of the image -/

/-- The name of a file in the image. -/
def Input.name (f : Input) : Str := (stored f.arg).take DIRSIZ

/-- Names that can be told apart. -/
structure Named (files : List Input) : Prop where
  ne_nil : ∀ f ∈ files, f.name ≠ []
  ne_dot : ∀ f ∈ files, f.name ≠ dot
  ne_dotdot : ∀ f ∈ files, f.name ≠ dotdot
  nodup : (files.map Input.name).Nodup

theorem stored_subset (arg : Str) : stored arg ⊆ shortname arg := by
  unfold stored
  split
  · exact tail_subset _
  · exact List.Subset.refl _

theorem shortname_subset (arg : Str) : shortname arg ⊆ arg := by
  unfold shortname
  split
  · exact drop_subset _ _
  · exact List.Subset.refl _

theorem Input.zero_notMem (f : Input) : 0 ∉ stored f.arg := fun h0 =>
  f.terminated (shortname_subset _ (stored_subset _ h0))

theorem cut_eq_take {s : Str} (h0 : 0 ∉ s) : cut s = s.take DIRSIZ := by
  refine takeWhile_eq_self_iff.mpr fun c hc => ?_
  rw [decide_eq_true_eq]
  rintro rfl
  exact h0 (mem_of_mem_take hc)

theorem Input.cut_name (f : Input) : cut f.name = f.name ∧ cut (stored f.arg) = f.name := by
  have hname : 0 ∉ f.name := fun h0 => f.zero_notMem (mem_of_mem_take h0)
  refine ⟨?_, cut_eq_take f.zero_notMem⟩
  rw [cut_eq_take hname]
  exact take_of_length_le (length_take_le _ _)

variable {f : Input}

theorem Input.isElem (hf : f.Accepted) (hne : f.name ≠ []) : IsElem f.name := by
  refine ⟨hne, length_take_le _ _, fun h0 => f.zero_notMem (mem_of_mem_take h0), fun hs => hf.1 ?_⟩
  exact stored_subset _ (mem_of_mem_take hs)

variable {files : List Input} {k : Nat}

/-- The name of a file is found at its own entry. -/
theorem Named.first (hn : Named files) (hlen : files.length + 1 < NINODES)
    (hk : files[k]? = some f) : First (rootDir files) f.name (k + 2) (entry k f) := by
  have hmem := mem_of_getElem? hk
  have hklt : k < files.length := (List.getElem?_eq_some_iff.mp hk).1
  have hget : ∀ j, (rootDir files)[j + 2]? = (files[j]?).map (entry j) := fun j => by
    show (files.mapIdx entry)[j]? = _
    rw [getElem?_mapIdx]
  have hsmall : NINODES < 2 ^ 16 := by decide
  refine ⟨by rw [hget, hk]; rfl, ?_, ?_, ?_⟩
  · show (k + 2) % 2 ^ 16 ≠ 0
    omega
  · rw [f.cut_name.1]
    exact f.cut_name.2.symm
  intro j e' hj he'
  rw [f.cut_name.1]
  rcases j with - | - | j
  · obtain rfl : { inum := ROOTINO, name := dot } = e' := Option.some.inj he'
    exact hn.ne_dot f hmem
  · obtain rfl : { inum := ROOTINO, name := dotdot } = e' := Option.some.inj he'
    exact hn.ne_dotdot f hmem
  rw [hget] at he'
  obtain ⟨g, hg, rfl⟩ := Option.map_eq_some_iff.mp he'
  have hcut : cut (entry j g).name = g.name := g.cut_name.2
  rw [hcut]
  intro heq
  have hj' : (files.map Input.name)[j]? = some f.name := by rw [getElem?_map, hg, heq]; rfl
  have hk' : (files.map Input.name)[k]? = some f.name := by rw [getElem?_map, hk]; rfl
  have hlt : k < (files.map Input.name).length := by rw [length_map]; exact hklt
  exact nodup_iff_getElem?_ne_getElem?.mp hn.nodup j k (by omega) hlt (hj'.trans hk'.symm)

/-- One entry of a directory. -/
theorem slice_entries {es : List Dirent} {j : Nat} {e : Dirent} (hj : es[j]? = some e) :
    ((es.flatMap bytes).drop (DIRENT * j)).take DIRENT = e.bytes := by
  induction es generalizing j with
  | nil => simp at hj
  | cons e₀ es ih =>
    rw [flatMap_cons]
    cases j with
    | zero =>
      obtain rfl : e₀ = e := Option.some.inj hj
      rw [mul_zero, drop_zero, take_append_of_le_length e₀.bytes_length.ge,
        take_of_length_le e₀.bytes_length.le]
    | succ j =>
      have hlen : DIRENT * (j + 1) = e₀.bytes.length + DIRENT * j := by
        rw [e₀.bytes_length]
        ring
      rw [hlen, ← drop_drop, drop_left]
      exact ih hj

variable {s s' : St}

/-- The root directory of an image. -/
theorem Finished.lists (h : Inv s (inodes files)) (hf : Finished s s' ((rootDir files).flatMap bytes).length)
    (hroot : ((rootDir files).flatMap bytes).length < NDIRECT * BSIZE) : Lists s'.img ROOTINO (rootDir files) := by
  obtain ⟨htype, hsize, hmax, hcont⟩ := hf.root_content h hroot
  have hlen := flatMap_bytes_length (rootDir files)
  refine ⟨htype, hlen ▸ hsize, ?_⟩
  intro p s₁ ip hdisk hmem j e hj
  have hend : DIRENT * j + DIRENT ≤ ((rootDir files).flatMap bytes).length := by
    rw [hlen]
    exact Nat.mul_le_mul_left DIRENT (Nat.succ_le_of_lt (List.getElem?_eq_some_iff.mp hj).1)
  have hread : performDisk sb p s₁ (.readi ip (DIRENT * j) DIRENT)
      = .ok (s₁, ((Fs.content s₁.sys.disk (s₁.sys.tab ip).mem).drop (DIRENT * j)).take DIRENT) := by
    refine Sys.readi_part (fun k hk => ?_) ?_ ?_
    · rw [hdisk, hmem]
      refine (hf.mapped h (k := 0) (e := (T_DIR, (rootDir files).flatMap bytes)) rfl ?_).1
      show k / BSIZE < nblk ((rootDir files).flatMap bytes).length
      unfold nblk BSIZE
      omega
    · rw [hmem]
      exact hmax
    · rw [hmem]
      exact hend.trans hsize
  rw [hread, hdisk, hmem, hcont _ _ hend, slice_entries hj]

/-- The kernel finds `bytes` as a file under `path`: `namei` returns an inode, `ilock` reads it,
and `readi` returns the bytes. -/
def Finds (d : Disk) (path : Str) (bytes : List UInt8) : Prop :=
  ∀ p, ∃ s₁ ip s₂ fields, (Sys.namei path).run (performDisk sb p) (bootDisk d) = .ok (s₁, some ip) ∧
    performDisk sb p s₁ (.ilock ip) = .ok (s₂, ()) ∧
    performDisk sb p s₂ (.fields ip) = .ok (s₂, fields) ∧ fields.type = T_FILE ∧ fields.nlink = 1 ∧
    performDisk sb p s₂ (.size ip) = .ok (s₂, bytes.length) ∧
    ∀ off n : UInt32, performDisk sb p s₂ (.readi ip off.toNat n.toNat)
      = .ok (s₂, Sys.readData bytes off.toNat n.toNat)

theorem Finished.finds (h : Inv s (inodes files)) (hf : Finished s s' ((rootDir files).flatMap bytes).length)
    (hroot : ((rootDir files).flatMap bytes).length < NDIRECT * BSIZE) (hlen : files.length + 1 < NINODES)
    (hn : Named files) (hk : files[k]? = some f) (hacc : f.Accepted) :
    Finds s'.img (slash :: f.name) f.bytes := by
  intro p
  have hsmall : NINODES < 2 ^ 16 := by decide
  have hklt : k < files.length := (List.getElem?_eq_some_iff.mp hk).1
  have hinum : (entry k f).inum % 2 ^ 16 = k + 1 + 1 := Nat.mod_eq_of_lt (show k + 2 < 2 ^ 16 by omega)
  have hfile : (inodes files)[k + 1]? = some (T_FILE, f.bytes) := by
    show (files.map fun f => (T_FILE, f.bytes))[k]? = _
    rw [getElem?_map, hk]
    rfl
  obtain ⟨htype, hnlink, hcont, hfilled⟩ := hf.file h hfile (show k + 1 + 1 ≠ ROOTINO from by
    show k + 1 + 1 ≠ 1
    omega)
  have hne : (entry k f).inum % 2 ^ 16 ≠ ROOTINO := by
    rw [hinum]
    show k + 1 + 1 ≠ 1
    omega
  obtain ⟨s₁, r, hrun, ip, rfl, hdisk, hino, href, hvalid, hlock⟩ :=
    Prog.run_of_wp (namei_wp (p := p) (hf.lists h hroot)
      (Input.isElem hacc (hn.ne_nil f (mem_of_getElem? hk))) (hn.first hlen hk) hne)
  rw [hinum] at hino
  have hty : (Xv6.dinode sb s₁.sys.disk (s₁.sys.tab ip).inum).type ≠ 0 := by
    rw [hdisk, hino, htype]
    exact (by decide : T_FILE ≠ 0)
  have hilock := Sys.ilock_fresh (p := p) hlock (by omega) hvalid hty
  obtain ⟨s₂, hs₂⟩ : ∃ s₂, s₂ = (s₁.setEntry ip
    (((s₁.sys.tab ip).cache (Xv6.dinode sb s₁.sys.disk (s₁.sys.tab ip).inum)).setValid true)).setLock ip true := ⟨_, rfl⟩
  have hmem : (s₂.sys.tab ip).mem = Xv6.dinode sb s'.img (k + 1 + 1) := by
    have htab : s₂.sys.tab ip
        = ((s₁.sys.tab ip).cache (Xv6.dinode sb s₁.sys.disk (s₁.sys.tab ip).inum)).setValid true := by
      rw [hs₂]
      exact update_self ..
    rw [htab, hdisk, hino]
    rfl
  have hdisk₂ : s₂.sys.disk = s'.img := by
    rw [hs₂]
    exact hdisk
  have hsize : (Xv6.dinode sb s'.img (k + 1 + 1)).size.toNat = f.bytes.length := by
    rw [← Fs.content_length s'.img, hcont]
  refine ⟨s₁, ip, s₂, Sys.fieldsOf (Xv6.dinode sb s'.img (k + 1 + 1)), hrun, ?_, ?_, htype, hnlink, ?_, fun off n => ?_⟩
  · rw [hilock, hs₂]
  · rw [performDisk, hmem]
  · rw [performDisk, hmem, hsize]
  · have hfilled₂ : Fs.Filled s₂.sys.disk (s₂.sys.tab ip).mem := by
      rw [hmem, hdisk₂]
      exact hfilled
    rw [Sys.readi_filled hfilled₂, hmem, hdisk₂, hcont]

/-- **mkfs and the kernel agree on the format.**  Files that fit, under names that can be told apart, are accepted
unless one has a slash in its name or cannot be opened; in the image the kernel finds each of them
with its length and its bytes. -/
theorem lookup_files {files : List Input} (hlen : files.length < NINODES - 1)
    (hsize : ∀ f ∈ files, f.bytes.length ≤ MAXFILE * BSIZE) (htotal : total (inodes files) ≤ FSSIZE) (hn : Named files) :
    ((∀ f ∈ files, f.Accepted) → ∃ s, main files = .ok s) ∧
      ∀ s, main files = .ok s → fsinit s.img = .ok sb ∧ ∀ f ∈ files, Finds s.img (slash :: f.name) f.bytes := by
  have hlen' : files.length + 1 < NINODES := by omega
  have hroot := rootDir_length files
  have hlt : ((rootDir files).flatMap bytes).length < NDIRECT * BSIZE := by
    rw [hroot]
    exact lt_of_lt_of_le (Nat.mul_lt_mul_of_pos_left (Nat.add_lt_add_right hlen' 1) (by decide)) (by decide)
  have hfits : Fits (inodes files) := by
    refine ⟨fun e he => ?_, htotal⟩
    rcases mem_cons.mp he with rfl | he
    · exact hlt.le.trans (by decide)
    · obtain ⟨f, hf, rfl⟩ := mem_map.mp he
      exact hsize f hf
  obtain ⟨hok, hex⟩ := main_spec files hlen'
  refine ⟨fun hacc => hex hacc hfits, fun s hs => ?_⟩
  obtain ⟨s₁, hinv, hfin⟩ := hok s hs
  rw [← hroot] at hfin
  refine ⟨?_, fun f hf => ?_⟩
  · rw [fsinit, hfin.superBlock hinv, ofBlock_super]
    rfl
  · obtain ⟨k, hk⟩ := mem_iff_getElem?.mp hf
    exact hfin.finds hinv hlt hlen' hn hk ((main_freeinode hs).1 f hf)

theorem zero_notMem_ls : 0 ∉ ([117, 115, 101, 114, 47, 95, 108, 115] : Str) := by decide

theorem lsChunks_ne_nil : ∀ c ∈ ([[1, 2, 3], [4]] : List (List UInt8)), c ≠ [] := by decide

theorem lsChunks_length_le : ∀ c ∈ ([[1, 2, 3], [4]] : List (List UInt8)), c.length ≤ BSIZE := by decide

/-- The file "user/_ls", read in two chunks. -/
def lsFile : Input where
  arg := [117, 115, 101, 114, 47, 95, 108, 115]
  opens := true
  chunks := [[1, 2, 3], [4]]
  terminated := zero_notMem_ls
  ne_nil := lsChunks_ne_nil
  length_le := lsChunks_length_le

/-- The kernel finds "/ls". -/
theorem lookup_ls : ∃ s, main [lsFile] = .ok s ∧ Finds s.img [47, 108, 115] [1, 2, 3, 4] := by
  have hacc : ∀ f ∈ [lsFile], f.Accepted := by
    intro f hf
    rw [mem_singleton.mp hf]
    unfold Input.Accepted
    decide
  have hsize : ∀ f ∈ [lsFile], f.bytes.length ≤ MAXFILE * BSIZE := by decide
  have hnamed : Named [lsFile] := ⟨by decide, by decide, by decide, by decide⟩
  obtain ⟨hex, hall⟩ := lookup_files (by decide) hsize (by decide) hnamed
  obtain ⟨s, hs⟩ := hex hacc
  exact ⟨s, hs, (hall s hs).2 lsFile mem_cons_self⟩

end Xv6.Mkfs
