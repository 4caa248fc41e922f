/-
Xv6/MkfsImage.lean

The image that mkfs makes.

`inodes` lists what the inodes of the image are to hold: the root directory, with an
entry for every file, and the files.  `main_spec` follows `main` from call to call with
`Makes`: as long as there are enough inodes, it succeeds if and only if the files are accepted and
fit, and then the image holds these inodes.

`Consistent` is what the kernel relies on.  An image has it unless `ialloc`
went past the inodes, which nothing checks, or the last rounding of the size of the root
directory added a block that the directory does not have.
-/
import Xv6.MkfsInv

namespace Xv6.Mkfs

open Function List Bytes

open Sys (T_DIR T_FILE)
open Fs (Owned All Uses blockAt)

/-! ### Calls in a row -/

section Rules

variable {s : St} {inos inos₁ inos₂ : List (Int16 × List UInt8)} {pre post : List (Int16 × List UInt8)} {ty : Int16}
  {data p : List UInt8}

theorem Makes.bind {r : Except String St} {f : St → Except String St} (h₁ : Makes r inos₁)
    (h₂ : ∀ s, Inv s inos₁ → Makes (f s) inos₂) (hfits : Fits inos₂ → Fits inos₁) : Makes (r >>= f) inos₂ := by
  rcases r with m | s
  · refine ⟨by rintro s ⟨⟩, fun hf => ?_⟩
    obtain ⟨s, hs⟩ := h₁.ok (hfits hf)
    cases hs
  · exact h₂ s (h₁.inv s rfl)

theorem Makes.pure (h : Inv s inos) : Makes (.ok s) inos :=
  ⟨fun _ hs => Except.ok.inj hs ▸ h, fun _ => ⟨s, rfl⟩⟩

/-- Shorter files fit as well. -/
theorem Fits.shrink (h : Fits (pre ++ (ty, data ++ p) :: post)) : Fits (pre ++ (ty, data) :: post) := by
  refine ⟨fun e he => ?_, ?_⟩
  · rcases mem_append.mp he with he | he
    · exact h.size e (mem_append_left _ he)
    rcases mem_cons.mp he with rfl | he
    · have hsize := h.size (ty, data ++ p) (by simp)
      rw [length_append] at hsize
      exact le_trans (Nat.le_add_right _ _) hsize
    · exact h.size e (mem_append_right _ (mem_cons_of_mem _ he))
  · have hblocks := h.blocks
    have hmono : taken (nblk data.length) ≤ taken (nblk (data ++ p).length) := by
      refine taken_mono (nblk_mono ?_)
      rw [length_append]
      exact Nat.le_add_right _ _
    rw [total_append] at hblocks ⊢
    simp only at hblocks ⊢
    omega

theorem Fits.of_append (h : Fits (inos₁ ++ inos₂)) : Fits inos₁ := by
  refine ⟨fun e he => h.size e (mem_append_left _ he), le_trans ?_ h.blocks⟩
  unfold total
  rw [map_append, sum_append]
  omega

/-- The calls of `iappend` for the chunks of a file. -/
theorem chunks_spec (cs : List (List UInt8)) (h : Inv s (pre ++ (ty, data) :: post)) :
    Makes (cs.foldlM (fun s c => iappend s (pre.length + 1) c) s) (pre ++ (ty, data ++ cs.flatten) :: post) := by
  induction cs generalizing s data with
  | nil =>
    rw [flatten_nil, append_nil]
    exact Makes.pure h
  | cons c cs ih =>
    rw [flatten_cons, ← append_assoc]
    exact (iappend_spec h c).bind (fun s hs => ih hs) Fits.shrink

end Rules

/-! ### The files -/

/-- The bytes of the file. -/
def Input.bytes (f : Input) : List UInt8 := f.chunks.flatten

/-- The checks that are made before an inode is allocated. -/
def Input.Accepted (f : Input) : Prop := slash ∉ shortname f.arg ∧ f.opens = true

/-- The entry for the file that comes as number `k`. -/
def entry (k : Nat) (f : Input) : Dirent := { inum := k + 2, name := stored f.arg }

/-- The root directory. -/
def rootDir (files : List Input) : List Dirent :=
  { inum := ROOTINO, name := dot } :: { inum := ROOTINO, name := dotdot } :: files.mapIdx entry

/-- The inodes of the image, from ROOTINO on. -/
def inodes (files : List Input) : List (Int16 × List UInt8) :=
  (T_DIR, (rootDir files).flatMap Dirent.bytes) :: files.map fun f => (T_FILE, f.bytes)

theorem inodes_snoc (files : List Input) (f : Input) :
    inodes (files ++ [f]) = (T_DIR, (rootDir files).flatMap Dirent.bytes ++ (entry files.length f).bytes) ::
      (files.map (fun f => (T_FILE, f.bytes)) ++ [(T_FILE, f.bytes)]) := by
  simp [inodes, rootDir, mapIdx_append]

theorem flatMap_bytes_length (es : List Dirent) : (es.flatMap Dirent.bytes).length = DIRENT * es.length := by
  induction es with
  | nil => rfl
  | cons e es ih =>
    rw [flatMap_cons, length_append, ih, Dirent.bytes_length, length_cons]
    ring

theorem rootDir_length (files : List Input) :
    ((rootDir files).flatMap Dirent.bytes).length = DIRENT * (files.length + 2) := by
  rw [flatMap_bytes_length, rootDir, length_cons, length_cons, length_mapIdx]

variable {s : St} {root : List UInt8} {fs : List (Int16 × List UInt8)}

/-- One round of the loop over the arguments. -/
theorem addFile_spec {f : Input} (h : Inv s ((T_DIR, root) :: fs)) (hf : f.Accepted) (hn : fs.length + 2 < NINODES) :
    Makes (addFile ROOTINO s f)
      ((T_DIR, root ++ (entry fs.length f).bytes) :: (fs ++ [(T_FILE, f.bytes)])) := by
  obtain ⟨s₁, halloc, h₁⟩ := ialloc_spec h (show T_FILE ≠ 0 by decide) hn
  have hcall : addFile ROOTINO s f
      = iappend s₁ ROOTINO (entry fs.length f).bytes >>= f.chunks.foldlM fun s c => iappend s (fs.length + 1 + 1) c := by
    rw [addFile, if_neg hf.1, if_neg (by rw [hf.2]; decide), halloc]
    rfl
  rw [hcall]
  have hroot : Inv s₁ ([] ++ (T_DIR, root) :: (fs ++ [(T_FILE, [])])) := h₁
  refine (iappend_spec hroot _).bind (fun s₂ h₂ => ?_) fun hfits => ?_
  · have hfile : Inv s₂ (((T_DIR, root ++ (entry fs.length f).bytes) :: fs) ++ (T_FILE, []) :: []) := h₂
    exact chunks_spec f.chunks hfile
  · have hall : Fits (((T_DIR, root ++ (entry fs.length f).bytes) :: fs) ++ (T_FILE, [] ++ f.bytes) :: []) := hfits
    exact hall.shrink

/-- The loop over the arguments. -/
theorem files_spec (h : Inv s (inodes [])) (files : List Input) (hf : ∀ f ∈ files, f.Accepted)
    (hn : files.length + 1 < NINODES) : Makes (files.foldlM (addFile ROOTINO) s) (inodes files) := by
  induction files using reverseRecOn with
  | nil => exact Makes.pure h
  | append_singleton files f ih =>
    rw [length_append] at hn
    have hlen : (files.map fun f => (T_FILE, f.bytes)).length = files.length := length_map _
    rw [foldlM_append]
    refine (ih (fun f hmem => hf f (mem_append_left _ hmem)) (by omega)).bind (fun s₁ h₁ => ?_) fun hfits => ?_
    · have hadd := addFile_spec h₁ (hf f (by simp)) (by rw [hlen]; exact hn)
      rw [hlen, ← inodes_snoc] at hadd
      simp only [foldlM_cons, foldlM_nil, bind_pure]
      exact hadd
    · rw [inodes_snoc] at hfits
      have hall : Fits ([] ++ (T_DIR, (rootDir files).flatMap Dirent.bytes ++ (entry files.length f).bytes) ::
          (files.map (fun f => (T_FILE, f.bytes)) ++ [(T_FILE, f.bytes)])) := hfits
      exact Fits.of_append hall.shrink

/-! ### The number of inodes

The counter goes up by one for every file, however many there are. -/

section Count

variable (s : St)

theorem winode_freeinode (i : Nat) (di : DInode) :
    Safe (fun _ => True) (winode s i di) fun s' => s'.freeinode = s.freeinode :=
  (Safe.any (rsect s (sb.iblock i))).bind fun _ _ => Safe.ok rfl

theorem addrOrNew_freeinode (din : DInode) (k : Nat) : (addrOrNew s din k).2.2.freeinode = s.freeinode := by
  unfold addrOrNew
  split <;> rfl

theorem sector_freeinode (din : DInode) (fbn : Nat) :
    Safe (fun _ => True) (sector s din fbn) fun r => r.2.2.freeinode = s.freeinode := by
  unfold sector
  split
  · exact Safe.ok (addrOrNew_freeinode s din fbn)
  have hnew := addrOrNew_freeinode s din NDIRECT
  refine (Safe.any (rsect (addrOrNew s din NDIRECT).2.2 (addrOrNew s din NDIRECT).1)).bind fun buf _ => ?_
  dsimp only
  split
  · exact Safe.ok hnew
  · exact Safe.ok hnew

theorem appendLoop_freeinode (fuel : Nat) (din : DInode) (off : Nat) (p : List UInt8) :
    Safe (fun _ => True) (appendLoop fuel s din off p) fun r => r.2.2.freeinode = s.freeinode := by
  induction fuel generalizing s din off p with
  | zero => exact Safe.ok rfl
  | succ fuel ih =>
    unfold appendLoop
    dsimp only
    split
    · split
      · refine (sector_freeinode s din (off / BSIZE)).bind fun r hr => ?_
        refine (Safe.any (rsect r.2.2 r.1)).bind fun buf _ => ?_
        exact (ih _ _ _ _).mono fun r' hr' => hr'.trans hr
      · exact Safe.error trivial
    · exact Safe.ok rfl

theorem iappend_freeinode (i : Nat) (p : List UInt8) :
    Safe (fun _ => True) (iappend s i p) fun s' => s'.freeinode = s.freeinode := by
  refine (Safe.any (rinode s i)).bind fun din _ => ?_
  refine (appendLoop_freeinode s p.length din din.size.toNat p).bind fun r hr => ?_
  exact (winode_freeinode r.2.2 i _).mono fun s' hs' => hs'.trans hr

theorem chunks_freeinode (i : Nat) (cs : List (List UInt8)) :
    Safe (fun _ => True) (cs.foldlM (fun s c => iappend s i c) s) fun s' => s'.freeinode = s.freeinode := by
  induction cs generalizing s with
  | nil => exact Safe.ok rfl
  | cons c cs ih =>
    exact (iappend_freeinode s i c).bind fun s₁ h₁ => (ih s₁).mono fun s' hs' => hs'.trans h₁

theorem addFile_freeinode (f : Input) :
    Safe (fun _ => True) (addFile ROOTINO s f) fun s' => f.Accepted ∧ s'.freeinode = s.freeinode + 1 := by
  unfold addFile
  by_cases hslash : slash ∈ shortname f.arg
  · rw [if_pos hslash]
    exact Safe.error trivial
  rw [if_neg hslash]
  by_cases hop : f.opens = false
  · rw [if_pos hop]
    exact Safe.error trivial
  rw [if_neg hop]
  refine ((winode_freeinode { s with freeinode := s.freeinode + 1 } s.freeinode
    { DInode.zero with type := T_FILE, nlink := 1 }).bind fun s₁ h₁ =>
      Safe.ok (Q := fun r : Nat × St => r.2.freeinode = s.freeinode + 1) h₁).bind fun r hr => ?_
  refine (iappend_freeinode r.2 ROOTINO _).bind fun s₂ h₂ => ?_
  refine (chunks_freeinode s₂ r.1 f.chunks).mono fun s' hs' => ⟨⟨hslash, ?_⟩, hs'.trans (h₂.trans hr)⟩
  exact (Bool.eq_false_or_eq_true f.opens).resolve_right hop

theorem files_freeinode (files : List Input) :
    Safe (fun _ => True) (files.foldlM (addFile ROOTINO) s) fun s' =>
      (∀ f ∈ files, f.Accepted) ∧ s'.freeinode = s.freeinode + files.length := by
  induction files generalizing s with
  | nil => exact Safe.ok ⟨by simp, rfl⟩
  | cons f files ih =>
    refine (addFile_freeinode s f).bind fun s₁ h₁ => (ih s₁).mono fun s' hs' => ⟨?_, ?_⟩
    · intro g hg
      rcases mem_cons.mp hg with rfl | hg
      · exact h₁.1
      · exact hs'.1 g hg
    · rw [length_cons]
      omega

theorem finish_freeinode : Safe (fun _ => True) (finish s ROOTINO) fun s' => s'.freeinode = s.freeinode := by
  refine (Safe.any (rinode s ROOTINO)).bind fun din _ => ?_
  refine (winode_freeinode s ROOTINO _).bind fun s₁ h₁ => ?_
  unfold balloc
  split
  · exact Safe.ok h₁
  · exact Safe.error trivial

end Count

/-! ### The image file at the start -/

theorem blank_eq (n : Nat) : (range n).foldl (fun s i => wsect s i zero) empty = { empty with nsect := n } := by
  induction n with
  | zero => rfl
  | succ n ih =>
    rw [range_succ, foldl_append, foldl_cons, foldl_nil, ih]
    have himg : update (fun _ : Nat => (zero : Block)) n zero = fun _ => zero :=
      update_eq_self n _
    unfold wsect empty
    rw [himg, max_eq_right (Nat.le_succ n)]

theorem start_eq : start = wsect { empty with nsect := FSSIZE } 1 (zero.patch 0 super.bytes) := by
  rw [start, blank_eq]

theorem start_img {b : Nat} (hb : b ≠ 1) : start.img b = zero := by
  rw [start_eq, wsect_img, update_of_ne hb]
  rfl

theorem start_good : Good start := by
  have hnsect : start.nsect = FSSIZE := by
    rw [start_eq]
    exact wsect_nsect (show 1 < FSSIZE by decide) _
  have hfree : start.freeblock = nmeta := by
    rw [start_eq]
    rfl
  refine ⟨hnsect, hfree.ge, ?_, fun b hb _ => start_img ?_, fun _ _ => rfl⟩
  · rw [hfree]
    decide
  · rintro rfl
    rw [hfree] at hb
    exact absurd hb (by decide)

theorem start_dinode {i : Nat} (hi : i < NINODES) : dinode sb (view start) i = DInode.zero := by
  have hne : sb.iblock i ≠ 1 := by
    have hlow := (iblock_lt hi).1
    rintro h1
    rw [h1] at hlow
    exact absurd hlow (by decide)
  rw [dinode, view_of_ne _ (iblock_ne hi), start_img hne, getDinode_zero]

theorem start_inv : Inv start [] := by
  have huses : ∀ i t b, ¬ Uses sb (view start) (dinode sb (view start)) All i t b := by
    rintro i t b ⟨hi, hty, -⟩
    rw [start_dinode hi] at hty
    exact hty rfl
  have hbit : ∀ b, b < sb.size → bitAt sb (view start) b = decide (b < nmeta) := by
    intro b hb
    rw [bitAt_view start_good.high (lt_of_lt_of_le hb (by decide)), start_eq]
    rfl
  have hown : Owned sb (view start) (dinode sb (view start)) All fun _ => False := by
    refine ⟨fun i t b hu => absurd hu (huses i t b), fun i t _ _ b hu => absurd hu (huses i t b), fun b hb hb' => ?_,
      fun _ _ _ hk => hk.elim, fun b hb => ?_⟩
    · rw [hbit b hb', decide_eq_true_eq]
      refine ⟨fun hlt => absurd hlt (not_lt.mpr hb), ?_⟩
      rintro (⟨i, t, hu⟩ | hk)
      · exact absurd hu (huses i t b)
      · exact hk.elim
    · rw [hbit b (lt_of_lt_of_le hb (by decide)), decide_eq_true_eq]
      exact hb
  refine ⟨start_good, ?_, by decide, hown.wf layout fun i hi hty => ?_, hown, by simp, by simp,
    fun i hi _ => start_dinode hi, ?_, ?_⟩
  · rw [start_eq]
    rfl
  · rw [start_dinode hi] at hty
    exact absurd rfl hty
  · rw [start_eq]
    rfl
  · rw [start_eq]
    intro b hb
    cases hb

/-- What `main` does before it looks at the files. -/
theorem main_start : ∃ s₀, Inv s₀ (inodes []) ∧
    ∀ files, main files = files.foldlM (addFile ROOTINO) s₀ >>= fun s => finish s ROOTINO := by
  obtain ⟨s₁, halloc, h₁⟩ := ialloc_spec start_inv (show T_DIR ≠ 0 by decide) (by decide)
  have hfits : Fits (inodes []) := by
    refine ⟨fun e he => ?_, by decide⟩
    rw [mem_singleton.mp he]
    decide
  have h₁' : Inv s₁ ([] ++ (T_DIR, []) :: []) := h₁
  have hdot := iappend_spec h₁' (Dirent.bytes { inum := ROOTINO, name := dot })
  have hfits' : Fits ([] ++ (T_DIR, Dirent.bytes { inum := ROOTINO, name := dot } ++
    Dirent.bytes { inum := ROOTINO, name := dotdot }) :: []) := hfits
  obtain ⟨s₂, hs₂⟩ := hdot.ok hfits'.shrink
  have hdotdot := iappend_spec (hdot.inv s₂ hs₂) (Dirent.bytes { inum := ROOTINO, name := dotdot })
  obtain ⟨s₃, hs₃⟩ := hdotdot.ok hfits
  refine ⟨s₃, hdotdot.inv s₃ hs₃, fun files => ?_⟩
  have h₂ : iappend s₁ ROOTINO (Dirent.bytes { inum := ROOTINO, name := dot }) = .ok s₂ := hs₂
  have h₃ : iappend s₂ ROOTINO (Dirent.bytes { inum := ROOTINO, name := dotdot }) = .ok s₃ := hs₃
  have halloc' : ialloc start T_DIR = .ok (ROOTINO, s₁) := halloc
  rw [main, halloc']
  simp only [bind, Except.bind, ne_eq, not_true_eq_false, if_false, h₂, h₃]

/-! ### The end -/

/-- The size that `finish` gives to the root directory. -/
def rounded (n : Nat) : Nat := (n / BSIZE + 1) * BSIZE

/-- What `finish` makes of the image. -/
structure Finished (s s' : St) (root : Nat) : Prop where
  img : s'.img = setDinode sb (view s) ROOTINO ((dinode sb (view s) ROOTINO).setSize (rounded root))
  nsect : s'.nsect = FSSIZE
  freeinode : s'.freeinode = s.freeinode
  inodeBlocks : s'.inodeBlocks = s.inodeBlocks ++ [sb.iblock ROOTINO]

theorem finish_spec (h : Inv s ((T_DIR, root) :: fs)) :
    ∃ s', finish s ROOTINO = .ok s' ∧ Finished s s' root.length := by
  have h' : Inv s ([] ++ (T_DIR, root) :: fs) := h
  obtain ⟨hlt, -, -, hsz⟩ := h'.open
  have hsize : (dinode sb (view s) ROOTINO).size.toNat = root.length := hsz
  obtain ⟨s₁, hw, hview, hg, hfb, hfi, hib⟩ :=
    winode_view h.good hlt ((dinode sb (view s) ROOTINO).setSize (rounded root.length))
  have hw' : winode s ROOTINO ((dinode sb (view s) ROOTINO).setSize (rounded root.length)) = .ok s₁ := hw
  have hused : s₁.freeblock < BSIZE * 8 := lt_of_le_of_lt hg.high (by decide)
  have hread : rinode s ROOTINO = .ok (dinode sb (view s) ROOTINO) := rinode_view h.good hlt
  have hcall : finish s ROOTINO = .ok (wsect s₁ sb.bmapstart (bitmap s₁.freeblock)) := by
    rw [finish, hread]
    simp only [bind, Except.bind, hsize]
    rw [← rounded, hw']
    exact if_pos hused
  refine ⟨_, hcall, hview, ?_, hfi, hib⟩
  refine (wsect_nsect ?_ _).trans hg.nsect
  rw [hg.nsect]
  decide

/-- However many files there are, `main` uses one inode for each and one for the root directory. -/
theorem main_freeinode {files : List Input} {s' : St} (h : main files = .ok s') :
    (∀ f ∈ files, f.Accepted) ∧ s'.freeinode = files.length + 2 := by
  obtain ⟨s₀, h₀, hmain⟩ := main_start
  have hone : (inodes []).length = 1 := rfl
  rw [hmain] at h
  refine Safe.of_ok (E := fun _ => True) (Q := fun s' => (∀ f ∈ files, f.Accepted) ∧ s'.freeinode = files.length + 2) ?_ h
  refine (files_freeinode s₀ files).bind fun s hs => (finish_freeinode s).mono fun s' hs' => ⟨hs.1, ?_⟩
  rw [hs', hs.2, h₀.count, hone, add_comm]

/-- **The image that mkfs makes**, if there are enough inodes. -/
theorem main_spec (files : List Input) (hn : files.length + 1 < NINODES) :
    (∀ s', main files = .ok s' → ∃ s, Inv s (inodes files) ∧ Finished s s' (DIRENT * (files.length + 2))) ∧
      ((∀ f ∈ files, f.Accepted) → Fits (inodes files) → ∃ s', main files = .ok s') := by
  obtain ⟨s₀, h₀, hmain⟩ := main_start
  have hroot := rootDir_length files
  refine ⟨fun s' hs' => ?_, fun hacc hfits => ?_⟩
  · have hmakes := files_spec h₀ files (main_freeinode hs').1 hn
    rw [hmain] at hs'
    rcases hfiles : files.foldlM (addFile ROOTINO) s₀ with m | s
    · rw [hfiles] at hs'
      cases hs'
    have hinv := hmakes.inv s hfiles
    obtain ⟨s₁, hfin, hfinished⟩ := finish_spec hinv
    rw [hfiles] at hs'
    obtain rfl : s₁ = s' := Except.ok.inj (hfin.symm.trans hs')
    exact ⟨s, hinv, hroot ▸ hfinished⟩
  · obtain ⟨s, hs⟩ := (files_spec h₀ files hacc hn).ok hfits
    obtain ⟨s', hfin, -⟩ := finish_spec ((files_spec h₀ files hacc hn).inv s hs)
    refine ⟨s', ?_⟩
    rw [hmain, hs]
    exact hfin

/-! ### Consistent images -/

/-- The regions follow each other and end with the image: boot block and super block, log, inodes,
free map, data. -/
def Super.Ordered (x : Super) : Prop :=
  2 ≤ x.logstart ∧ x.logstart + x.nlog ≤ x.inodestart ∧ x.inodestart + (x.ninodes / IPB + 1) ≤ x.bmapstart ∧
    x.bmapstart + (x.size / BPB + 1) ≤ x.size - x.nblocks ∧ x.size - x.nblocks + x.nblocks = x.size

/-- What the kernel relies on. -/
structure Consistent (s : St) : Prop where
  super : Super.ofBlock (s.img 1) = super
  regions : Mkfs.super.Ordered
  nsect : s.nsect = Mkfs.super.size
  inodeBlocks : ∀ b ∈ s.inodeBlocks, sb.inodestart ≤ b ∧ b < sb.bmapstart
  /-- Files have no holes. -/
  mapped : ∀ i, i < sb.ninodes → ∀ bn, bn < nblk (dinode sb s.img i).size.toNat →
    blockAt s.img (dinode sb s.img i) bn ≠ 0 ∧ sb.datastart ≤ blockAt s.img (dinode sb s.img i) bn ∧
      blockAt s.img (dinode sb s.img i) bn < sb.size
  once : ∀ i t i' t' b, Fs.Refers sb s.img i t b → Fs.Refers sb s.img i' t' b → i = i' ∧ t = t'
  marked : ∀ b, b < nbitmap * BPB → (bitAt sb s.img b = true ↔ b < sb.datastart ∨ ∃ i t, Fs.Refers sb s.img i t b)
  inodes : s.freeinode - 1 ≤ sb.ninodes - 1

theorem super_ordered : super.Ordered := by
  unfold Super.Ordered
  decide

theorem ofBlock_super : Super.ofBlock (zero.patch 0 super.bytes) = super := by decide

/-- The rounding adds a block to a directory whose last block is full. -/
theorem nblk_rounded (n : Nat) : nblk (rounded n) = if BSIZE ∣ n then nblk n + 1 else nblk n := by
  unfold nblk rounded BSIZE
  split <;> omega

theorem nblk_max : nblk (MAXFILE * BSIZE) = MAXFILE := by decide

section Image

variable {s s' : St} {root : List UInt8} {fs : List (Int16 × List UInt8)} (h : Inv s ((T_DIR, root) :: fs))
  (hf : Finished s s' root.length)

variable {b k : Nat}

include hf in
theorem Finished.high (hb : sb.bmapstart ≤ b) : s'.img b = view s b := by
  rw [hf.img]
  exact Fs.setDinode_high layout (show ROOTINO < sb.ninodes by decide) _ hb

include hf in
theorem Finished.dinode (i : Nat) : dinode sb s'.img i =
    if i = ROOTINO then (dinode sb (view s) ROOTINO).setSize (rounded root.length) else dinode sb (view s) i := by
  rw [hf.img, dinode_setDinode]

include hf in
theorem Finished.addrs (i : Nat) : (Xv6.dinode sb s'.img i).addrs = (Xv6.dinode sb (view s) i).addrs ∧
    (Xv6.dinode sb s'.img i).type = (Xv6.dinode sb (view s) i).type := by
  rw [hf.dinode]
  by_cases hi : i = ROOTINO
  · rw [hi]
    exact ⟨rfl, rfl⟩
  · rw [if_neg hi]
    exact ⟨rfl, rfl⟩

include h hf

theorem Finished.owned : Owned sb s'.img (Xv6.dinode sb s'.img) All fun _ => False :=
  h.owned.rewrite layout (fun _ hx => hf.high hx) fun i _ => ⟨(hf.addrs i).2, (hf.addrs i).1⟩

variable {e : Int16 × List UInt8}

/-- The indirect block of an inode is a data block. -/
theorem Finished.indirect (hk : ((T_DIR, root) :: fs)[k]? = some e)
    (h0 : (Xv6.dinode sb (view s) (k + 1)).addr NDIRECT ≠ 0) :
    s'.img ((Xv6.dinode sb (view s) (k + 1)).addr NDIRECT) = view s ((Xv6.dinode sb (view s) (k + 1)).addr NDIRECT) := by
  have hkn : k + 1 < NINODES := lt_of_le_of_lt (List.getElem?_eq_some_iff.mp hk).1 h.few
  have hty : (Xv6.dinode sb (view s) (k + 1)).type ≠ 0 := by
    rw [(h.holds k e hk).type]
    exact h.type e (mem_of_getElem? hk)
  have hu : Uses sb (view s) (Xv6.dinode sb (view s)) All (k + 1) .indirect ((Xv6.dinode sb (view s) (k + 1)).addr NDIRECT) :=
    ⟨hkn, hty, trivial, trivial, rfl, h0⟩
  exact hf.high (le_trans (by decide) (uses_range h.good h.owned hu).1)

/-- The blocks of the inodes. -/
theorem Finished.upto (hk : ((T_DIR, root) :: fs)[k]? = some e) :
    Upto s'.img (Xv6.dinode sb s'.img (k + 1)) (nblk e.2.length) :=
  (h.holds k e hk).upto.congr (hf.addrs _).1 (hf.indirect h hk)

theorem Finished.marked (hb : b < nbitmap * BPB) :
    bitAt sb s'.img b = true ↔ b < sb.datastart ∨ ∃ i t, Fs.Refers sb s'.img i t b := by
  have hb' : b < BPB := hb
  have hown := hf.owned h
  have hbit : bitAt sb s'.img b = decide (b < s.freeblock) := by
    rw [← bitAt_view h.good.high hb']
    have hsame : s'.img (sb.bblock b) = view s (sb.bblock b) := hf.high (Nat.le_add_left _ _)
    unfold bitAt
    rw [hsame]
  constructor
  · intro hset
    rcases lt_or_ge b sb.datastart with hlow | hlow
    · exact .inl hlow
    have hlt : b < s.freeblock := of_decide_eq_true (hbit.symm.trans hset)
    rcases (hown.marked b hlow (hlt.trans_le h.good.high)).mp hset with hu | hk
    · exact .inr hu
    · exact hk.elim
  · rintro (hlow | ⟨i, t, hu⟩)
    · exact hown.reserved b hlow
    · exact hown.bit hu

/-- An inode of the image without holes. -/
theorem Finished.mapped (hk : ((T_DIR, root) :: fs)[k]? = some e) {bn : Nat} (hbn : bn < nblk e.2.length) :
    blockAt s'.img (Xv6.dinode sb s'.img (k + 1)) bn ≠ 0 ∧
      sb.datastart ≤ blockAt s'.img (Xv6.dinode sb s'.img (k + 1)) bn ∧
        blockAt s'.img (Xv6.dinode sb s'.img (k + 1)) bn < sb.size := by
  have hh := h.holds k e hk
  have hkn : k + 1 < NINODES := lt_of_le_of_lt (List.getElem?_eq_some_iff.mp hk).1 h.few
  have hty : (Xv6.dinode sb (view s) (k + 1)).type ≠ 0 := by
    rw [hh.type]
    exact h.type e (mem_of_getElem? hk)
  have hmax : bn < MAXFILE := by
    have hsize := (h.wf.filled (k + 1) hkn hty).size
    rw [← Fs.content_length (view s), hh.content] at hsize
    exact lt_of_lt_of_le hbn (le_trans (nblk_mono hsize) nblk_max.le)
  have h0 := ((hf.upto h hk).data bn hmax).mpr hbn
  have hu : Uses sb s'.img (Xv6.dinode sb s'.img) All (k + 1) (.data bn)
      (blockAt s'.img (Xv6.dinode sb s'.img (k + 1)) bn) := by
    refine ⟨hkn, ?_, hmax, trivial, rfl, h0⟩
    rw [(hf.addrs _).2]
    exact hty
  exact ⟨h0, (hf.owned h).data _ _ _ hu⟩

omit h in
/-- The size of the root directory. -/
theorem Finished.root_size (hroot : root.length < NDIRECT * BSIZE) :
    (Xv6.dinode sb s'.img ROOTINO).size.toNat = rounded root.length := by
  have hle : rounded root.length ≤ NDIRECT * BSIZE :=
    Nat.mul_le_mul_right _ (Nat.div_lt_of_lt_mul (by rw [mul_comm]; exact hroot))
  rw [hf.dinode]
  exact UInt32.toNat_ofNat_of_lt' (lt_of_le_of_lt hle (by decide))

/-- The size of an inode of the image. -/
theorem Finished.size {i : Nat} (hi : i < NINODES) (hne : i ≠ ROOTINO) :
    (Xv6.dinode sb s'.img i).size.toNat = 0 ∨
      ∃ k e, i = k + 1 ∧ ((T_DIR, root) :: fs)[k]? = some e ∧ (Xv6.dinode sb s'.img i).size.toNat = e.2.length := by
  rw [hf.dinode, if_neg hne]
  by_cases hfree : i = 0 ∨ ((T_DIR, root) :: fs).length < i
  · rw [h.free i hi hfree]
    exact .inl rfl
  obtain ⟨k, rfl⟩ : ∃ k, i = k + 1 := ⟨i - 1, by omega⟩
  have hk : k < ((T_DIR, root) :: fs).length := by omega
  have hget := getElem?_eq_getElem hk
  refine .inr ⟨k, _, rfl, hget, ?_⟩
  rw [← Fs.content_length (view s), (h.holds k _ hget).content]

theorem Finished.superBlock : s'.img 1 = zero.patch 0 super.bytes := by
  have hlow : sb.iblock ROOTINO ≠ 1 := by decide
  rw [hf.img, setDinode, update_of_ne (Ne.symm hlow), view_of_ne _ (by decide), h.good.first 1 (by decide),
    start_eq, wsect_img, update_self]

theorem Finished.consistent (hroot : root.length < NDIRECT * BSIZE) (hhole : ¬ BSIZE ∣ root.length) : Consistent s' := by
  have hown := hf.owned h
  refine ⟨?_, super_ordered, hf.nsect, fun b hb => ?_, fun i hi bn hbn => ?_, hown.inj, fun b hb => hf.marked h hb, ?_⟩
  · rw [hf.superBlock h]
    exact ofBlock_super
  · rw [hf.inodeBlocks] at hb
    rcases mem_append.mp hb with hb | hb
    · exact h.region b hb
    · rw [mem_singleton.mp hb]
      exact iblock_lt (by decide)
  · rcases eq_or_ne i ROOTINO with rfl | hne
    · rw [hf.root_size hroot, nblk_rounded, if_neg hhole] at hbn
      exact hf.mapped h rfl hbn
    rcases hf.size h hi hne with hs | ⟨k, e, rfl, hk, hs⟩
    · rw [hs] at hbn
      exact absurd hbn (Nat.not_lt_zero bn)
    · rw [hs] at hbn
      exact hf.mapped h hk hbn
  · have hfew := h.few
    rw [hf.freeinode, h.count]
    show ((T_DIR, root) :: fs).length + 1 - 1 ≤ NINODES - 1
    omega

/-- The block that the rounding of the size adds is not there. -/
theorem Finished.not_consistent (hroot : root.length < NDIRECT * BSIZE) (hhole : BSIZE ∣ root.length) :
    ¬ Consistent s' := by
  intro hc
  have hbn : nblk root.length < nblk (Xv6.dinode sb s'.img ROOTINO).size.toNat := by
    rw [hf.root_size hroot, nblk_rounded, if_pos hhole]
    exact Nat.lt_succ_self _
  have hmax : nblk root.length < MAXFILE :=
    lt_of_le_of_lt (nblk_mono hroot.le) (by decide)
  have hup := hf.upto h (k := 0) rfl
  have h0 := (hc.mapped ROOTINO (by decide) _ hbn).1
  exact absurd ((hup.data _ hmax).mp h0) (lt_irrefl _)

end Image

theorem zero_notMem_a : 0 ∉ ([97] : Str) := by decide

/-- A file "a" without bytes. -/
def emptyFile : Input where
  arg := [97]
  opens := true
  chunks := []
  terminated := zero_notMem_a
  ne_nil := forall_mem_nil _
  length_le := forall_mem_nil _

theorem emptyFile_accepted : emptyFile.Accepted := by
  unfold Input.Accepted
  decide

/-- Empty files fit. -/
theorem fits_empty (n : Nat) (hn : n + 1 < NINODES) : Fits (inodes (replicate n emptyFile)) := by
  have hroot : ((rootDir (replicate n emptyFile)).flatMap Dirent.bytes).length ≤ 4 * BSIZE := by
    rw [rootDir_length, length_replicate]
    exact le_trans (Nat.mul_le_mul_left _ (Nat.add_le_add_right (Nat.le_of_lt hn) 1)) (by decide)
  have hbytes : emptyFile.bytes = [] := rfl
  unfold inodes
  rw [map_replicate]
  refine ⟨fun e he => ?_, ?_⟩
  · rcases mem_cons.mp he with rfl | he
    · exact hroot.trans (by decide)
    · rw [eq_of_mem_replicate he]
      exact Nat.zero_le _
  · have hblocks : taken (nblk ((rootDir (replicate n emptyFile)).flatMap Dirent.bytes).length) ≤ 4 :=
      le_trans (taken_mono (nblk_mono hroot)) (by decide)
    unfold total
    rw [map_cons, map_replicate, sum_cons, sum_replicate]
    exact le_trans (Nat.add_le_add_left hblocks nmeta) (by decide)

/-- **An image of mkfs is consistent** unless there are too many files for the inode table,
or so many that the root directory ends at the end of a block. -/
theorem main_consistent_iff {files : List Input} {s : St} (h : main files = .ok s) :
    Consistent s ↔ files.length + 1 < NINODES ∧ ¬ BSIZE ∣ DIRENT * (files.length + 2) := by
  have hcount := (main_freeinode h).2
  by_cases hn : files.length + 1 < NINODES
  · obtain ⟨s₁, hinv, hfin⟩ := (main_spec files hn).1 s h
    have hroot := rootDir_length files
    have hlt : ((rootDir files).flatMap Dirent.bytes).length < NDIRECT * BSIZE := by
      rw [hroot]
      exact lt_of_lt_of_le (Nat.mul_lt_mul_of_pos_left (Nat.add_lt_add_right hn 1) (by decide)) (by decide)
    rw [← hroot] at hfin ⊢
    refine ⟨fun hc => ⟨hn, fun hhole => hfin.not_consistent hinv hlt hhole hc⟩, fun hc => hfin.consistent hinv hlt hc.2⟩
  · refine ⟨fun hc => absurd ?_ hn, fun hc => absurd hc.1 hn⟩
    have hused := hc.inodes
    rw [hcount] at hused
    have hused' : files.length + 2 - 1 ≤ NINODES - 1 := hused
    omega

/-- An image without files is consistent. -/
theorem main_nil_consistent : ∃ s, main [] = .ok s ∧ Consistent s := by
  have hfits : Fits (inodes []) := fits_empty 0 (by decide)
  obtain ⟨s, hs⟩ := (main_spec [] (by decide)).2 (by simp) hfits
  exact ⟨s, hs, (main_consistent_iff hs).mpr (by decide)⟩

/-- The image of 62 empty files is not consistent: the root directory has 64 entries, which
are one block, and its size says two. -/
theorem main_hole : ∃ s, main (replicate 62 emptyFile) = .ok s ∧ ¬ Consistent s := by
  have hn : (replicate 62 emptyFile).length + 1 < NINODES := by
    decide
  have hroot : ((rootDir (replicate 62 emptyFile)).flatMap Dirent.bytes).length = BSIZE := by
    rw [rootDir_length]
    decide
  obtain ⟨hok, hex⟩ := main_spec (replicate 62 emptyFile) hn
  obtain ⟨s, hs⟩ := hex (fun f hf => eq_of_mem_replicate hf ▸ emptyFile_accepted) (fits_empty 62 (by decide))
  obtain ⟨s₁, hinv, hfin⟩ := hok s hs
  rw [← rootDir_length] at hfin
  refine ⟨s, hs, hfin.not_consistent hinv ?_ ?_⟩ <;> rw [hroot]
  decide

end Xv6.Mkfs
