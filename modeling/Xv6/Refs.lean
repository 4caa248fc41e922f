/-
Xv6/Refs.lean

Who refers to an entry of the inode table, to a file and to a pipe.

A system call takes and drops references on about thirty return paths.  What it
owns at a moment is an `Own`: references to inodes and to files, some of the latter
not open yet, ends of pipes, and the child that `fork` is making.  Outside a call, a
process owns what its current directory and its descriptors point to.

`acct` is the specification of the operations as far as ownership goes: what an
operation must own, and what the caller owns after it.  It says nothing about
what comes back otherwise, so that a program meets it on every path.
`prog_done` is the result for the programs: each system call, started with what
its process owns outside a call, ends with just that.

`Acc` ties the counts to the owners: the count of an entry is the number of files
that are open on it plus the references that processes own.  Every operation
keeps it (`perform_acc`), whoever carries it out, and so does every interleaving.
-/
import Xv6.Kernel

namespace Xv6.Sys

open Finset Function Prog Multiset

/-- The references that a pointer is. -/
def one {α : Type} : Option α → Multiset α
  | none => 0
  | some a => {a}

/-- The references that a table of descriptors is. -/
def fds (ofile : Fd → Option FPtr) : Multiset FPtr := ∑ fd, one (ofile fd)

theorem fds_update (ofile : Fd → Option FPtr) (fd : Fd) (f : Option FPtr) :
    fds (update ofile fd f) + one (ofile fd) = fds ofile + one f :=
  sum_update_trade one ofile fd f

@[simp] theorem fds_none : fds (fun _ => none) = 0 := by
  simp [fds, one]

/-! ### What a process owns -/

/-- What a process owns in the middle of a call. -/
structure Own where
  inodes : Multiset IPtr
  files : Multiset FPtr
  /-- Files that are allocated and not open yet. -/
  blank : Finset FPtr
  /-- Ends of pipes whose files are closed already. -/
  ends : Multiset (Nat × Bool)
  /-- A process that is allocated and not runnable yet. -/
  child : Option PPtr
  /-- The fields of the process itself. -/
  self : Proc

namespace Own

/-- What a process owns outside a call. -/
def idle (x : Proc) : Own :=
  { inodes := one x.cwd, files := fds x.ofile, blank := ∅, ends := 0, child := none, self := x }

@[simps] def setInodes (m : Own) (inodes : Multiset IPtr) : Own := { m with inodes := inodes }

@[simps] def setFiles (m : Own) (files : Multiset FPtr) : Own := { m with files := files }

@[simps] def setBlank (m : Own) (blank : Finset FPtr) : Own := { m with blank := blank }

@[simps] def setEnds (m : Own) (ends : Multiset (Nat × Bool)) : Own := { m with ends := ends }

@[simps] def setChild (m : Own) (child : Option PPtr) : Own := { m with child := child }

@[simps] def setSelf (m : Own) (self : Proc) : Own := { m with self := self }

/-- One reference to an inode more. -/
def gain (m : Own) (ip : IPtr) : Own := m.setInodes (ip ::ₘ m.inodes)

/-- One reference to an inode less. -/
def lose (m : Own) (ip : IPtr) : Own := m.setInodes (m.inodes.erase ip)

/-- One reference to a file more. -/
def gainFile (m : Own) (f : FPtr) : Own := m.setFiles (f ::ₘ m.files)

/-- One reference to a file less. -/
def loseFile (m : Own) (f : FPtr) : Own := m.setFiles (m.files.erase f)

/-- One file more that is not open yet. -/
def newFile (m : Own) (f : FPtr) : Own := (m.gainFile f).setBlank (insert f m.blank)

/-- A file is not blank any more. -/
def fill (m : Own) (f : FPtr) : Own := m.setBlank (m.blank.erase f)

/-- One end of a pipe more. -/
def gainEnd (m : Own) (e : Nat × Bool) : Own := m.setEnds (e ::ₘ m.ends)

/-- One end of a pipe less. -/
def loseEnd (m : Own) (e : Nat × Bool) : Own := m.setEnds (m.ends.erase e)

/-- Nothing is left of a call: what the process owns is what its own fields point to, and
those of a process that has exited point to nothing. -/
structure Done (m : Own) : Prop where
  idle : m = Own.idle m.self
  dead : m.self.state ≠ .live → m.self.cwd = none ∧ m.self.ofile = fun _ => none

end Own

open Own

/-- The file stands for an inode. -/
abbrev FileData.IsInode (d : FileData) : Prop := d.type = .inode ∨ d.type = .device

/-- The panics that find a file with no reference. -/
def Miscount (msg : String) : Prop := msg = "filedup" ∨ msg = "fileclose"

instance (msg : String) : Decidable (Miscount msg) := inferInstanceAs (Decidable (_ ∨ _))

/-- What an operation must own and what is owned after it. -/
@[simp] def acct : Prog.Spec FsOp FsOp.Resp Own
  | .iget _, m, Q => ∀ ip, Q ip (m.gain ip)
  | .idup ip, m, Q => ip ∈ m.inodes ∧ Q () (m.gain ip)
  | .idrop ip, m, Q => ip ∈ m.inodes ∧ Q () (m.lose ip)
  | .filealloc, m, Q => Q none m ∧ ∀ f, f ∉ m.files → f ∉ m.blank → Q (some f) (m.newFile f)
  | .filedup f, m, Q => f ∈ m.files ∧ f ∉ m.blank ∧ Q () (m.gainFile f)
  | .fileunref f, m, Q =>
    f ∈ m.files ∧
      (f ∈ m.blank ∧ (∀ d, d.type = .none → Q (some d) ((m.loseFile f).fill f)) ∨
        f ∉ m.blank ∧ Q none (m.loseFile f) ∧
          ∀ d, (d.IsInode → ∀ ip, d.ip = some ip → Q (some d) ((m.loseFile f).gain ip)) ∧
            (d.type = .pipe → ∀ i, d.pipe = some i → Q (some d) ((m.loseFile f).gainEnd (i, d.writable))) ∧
            (d.type = .none → Q (some d) (m.loseFile f)))
  | .fileopen f ip _ _ _ _, m, Q => f ∈ m.blank ∧ ip ∈ m.inodes ∧ Q () ((m.lose ip).fill f)
  | .filedata f, m, Q => f ∈ m.files ∧ f ∉ m.blank ∧ ∀ d, Q d m
  | .setOff f _, m, Q => f ∈ m.files ∧ f ∉ m.blank ∧ Q () m
  | .pipeinit f0 f1, m, Q =>
    f0 ∈ m.blank ∧ f1 ∈ m.blank ∧ f0 ≠ f1 ∧ Q false m ∧ Q true ((m.fill f0).fill f1)
  | .pipeclose i w, m, Q => (i, w) ∈ m.ends ∧ Q () (m.loseEnd (i, w))
  | .cwd, m, Q => ∀ ip, m.self.cwd = some ip → Q ip m
  | .setCwd ip, m, Q => Q () (m.setSelf (m.self.setCwd ip))
  | .ofile fd, m, Q => Q (m.self.ofile fd) m
  | .clearFd fd, m, Q => Q () (m.setSelf (m.self.setFd fd none))
  | .fdalloc f, m, Q =>
    Q none m ∧ ∀ fd, m.self.ofile fd = none → Q (some fd) (m.setSelf (m.self.setFd fd (some f)))
  | .zombie, m, Q => Q () (m.setSelf (m.self.setState .zombie))
  | .allocproc, m, Q => m.child = none ∧ Q none m ∧ ∀ np pid, Q (some (np, pid)) (m.setChild (some np))
  | .freeproc np, m, Q => m.child = some np ∧ Q () (m.setChild none)
  | .spawn np ofile cwd, m, Q =>
    m.child = some np ∧ m.blank = ∅ ∧ cwd ∈ m.inodes ∧ fds ofile ≤ m.files ∧
      Q () (((m.lose cwd).setFiles (m.files - fds ofile)).setChild none)
  | .panic msg, _, _ => ¬ Miscount msg
  -- the other operations take and drop nothing
  | .ilock _, m, Q | .ilockNew _ _, m, Q | .iunlock _, m, Q | .invalidate _, m, Q | .iupdate _ _, m, Q | .itrunc _, m, Q => Q () m
  | .lastRef _, m, Q | .isInit, m, Q | .choice, m, Q => ∀ b, Q b m
  | .inum _, m, Q | .size _, m, Q | .mark _, m, Q => ∀ n, Q n m
  | .fields _, m, Q => ∀ f, Q f m
  | .readi _ _ _, m, Q => ∀ b, Q b m
  | .writei _ _ _, m, Q | .writeUser _ _ _ _, m, Q => ∀ n, Q n m

/-! ### The programs own what they use -/

namespace Own

variable (m : Own) (a b : IPtr) (f : FPtr)

@[simp] theorem gain_inodes : (m.gain a).inodes = a ::ₘ m.inodes := rfl

@[simp] theorem lose_inodes : (m.lose a).inodes = m.inodes.erase a := rfl

@[simp] theorem gainFile_files : (m.gainFile f).files = f ::ₘ m.files := rfl

@[simp] theorem loseFile_files : (m.loseFile f).files = m.files.erase f := rfl

@[simp] theorem gain_lose : (m.gain a).lose a = m := by
  simp [gain, lose, setInodes]

@[simp] theorem gainFile_loseFile : (m.gainFile f).loseFile f = m := by
  simp [gainFile, loseFile, setFiles]

@[simp] theorem gainFile_gainFile_loseFile (f' : FPtr) : ((m.gainFile f).gainFile f').loseFile f = m.gainFile f' := by
  simp [gainFile, loseFile, setFiles, cons_swap f' f]

@[simp] theorem gain_gain_lose : ((m.gain a).gain b).lose a = m.gain b := by
  simp [gain, lose, setInodes, cons_swap b a]

variable {m a f} {f' : FPtr}

/-- A new file that is closed again. -/
theorem abandon (hb : f ∉ m.blank) : ((m.newFile f).loseFile f).fill f = m := by
  simp [newFile, fill, gainFile, loseFile, setFiles, setBlank, hb]

/-- A new file that gets a descriptor and an inode. -/
theorem commit (hb : f ∉ m.blank) {x : Proc} :
    ((((m.gain a).newFile f).setSelf x).lose a).fill f = (m.gainFile f).setSelf x := by
  simp [newFile, fill, gain, gainFile, lose, setFiles, setBlank, setInodes, setSelf, hb]

/-- Of two new files, the first is closed again. -/
theorem abandon_first (hne : f' ≠ f) (hb : f ∉ m.blank) :
    (((m.newFile f).newFile f').loseFile f).fill f = m.newFile f' := by
  have hblank : (insert f' (insert f m.blank)).erase f = insert f' m.blank := by
    rw [erase_insert_of_ne hne, erase_insert hb]
  simp [newFile, fill, gainFile, loseFile, setFiles, setBlank, cons_swap f' f, hblank]

/-- Two new files become the ends of a pipe. -/
theorem commit_pipe (hne : f' ≠ f) (hb : f ∉ m.blank) (hb' : f' ∉ m.blank) :
    (((m.newFile f).newFile f').fill f).fill f' = (m.gainFile f).gainFile f' := by
  have hblank : ((insert f' (insert f m.blank)).erase f).erase f' = m.blank := by
    rw [erase_insert_of_ne hne, erase_insert hb, erase_insert hb']
  simp [newFile, fill, gainFile, setFiles, setBlank, hblank]

@[simp] theorem gainEnd_loseEnd (e : Nat × Bool) : (m.gainEnd e).loseEnd e = m := by
  simp [gainEnd, loseEnd, setEnds]

end Own

section Programs

variable {m : Own} {ip dp : IPtr} {f : FPtr} {α : Type} {parent : Bool} {Q : Int → Own → Prop} {name path src : Str}
  {msg : String}

theorem acct_panic {Q : α → Own → Prop} (h : ¬ Miscount msg) :
    (panic msg : FsProg α).wp acct m Q := h

theorem acct_iput {Q : Unit → Own → Prop} (h : ip ∈ m.inodes) (hQ : Q () (m.lose ip)) : (iput ip).wp acct m Q := by
  simp only [iput, wp_bind, wp_issue, acct]
  intro b
  cases b
  · simp [h, hQ]
  · simp [ifree, acct, h, hQ]

theorem acct_iput_gain {Q : Unit → Own → Prop} (hQ : Q () m) : (iput ip).wp acct (m.gain ip) Q :=
  acct_iput (by simp) (by rwa [gain_lose])

theorem acct_iput_below {Q : Unit → Own → Prop} (hQ : Q () (m.gain ip)) : (iput dp).wp acct ((m.gain dp).gain ip) Q :=
  acct_iput (by simp) (by rwa [gain_gain_lose])

/-- The scan of a directory takes and drops nothing. -/
theorem acct_scan {stop : Dirent → Bool} {size : Nat} (hmsg : ¬ Miscount msg)
    {Q : Nat × Option Dirent → Own → Prop} (hQ : ∀ r, Q r m) (n off : Nat) :
    (scan dp msg stop size n off).wp acct m Q := by
  induction n generalizing off with
  | zero => exact hQ _
  | succ n ih =>
    rw [scan]
    split
    · simp only [wp_bind, wp_issue, acct]
      intro b
      split
      · exact acct_panic hmsg
      · split
        · exact hQ _
        · exact ih _
    · exact hQ _

/-- `dirlookup` takes a reference to the inode it finds. -/
theorem acct_dirlookup {Q : Option (IPtr × Nat) → Own → Prop} (hnone : Q none m)
    (hsome : ∀ ip off, Q (some (ip, off)) (m.gain ip)) : (dirlookup dp name).wp acct m Q := by
  simp only [dirlookup, wp_bind, wp_issue, acct]
  intro f
  split
  · exact acct_panic (by decide)
  simp only [wp_bind, wp_issue, acct]
  intro size
  refine acct_scan (by decide) (fun r => ?_) _ _
  rcases r with ⟨off, - | de⟩
  · exact hnone
  · exact fun ip => hsome ip off

theorem acct_dirlink {inum : Nat} (hQ : ∀ r, Q r m) : (dirlink dp name inum).wp acct m Q := by
  rw [dirlink, wp_bind]
  refine acct_dirlookup ?_ fun ip off => ?_
  · simp only [wp_bind, wp_issue, acct]
    intro size
    refine acct_scan (by decide) (fun r n => ?_) _ _
    split
    · exact acct_panic (by decide)
    · exact hQ _
  · rw [wp_bind]
    exact acct_iput_gain (hQ _)

theorem acct_isdirempty {Q : Bool → Own → Prop} (hQ : ∀ r, Q r m) : (isdirempty dp).wp acct m Q := by
  simp only [isdirempty, wp_bind, wp_issue, acct]
  intro size
  exact acct_scan (by decide) (fun r => hQ _) _ _

/-- The loop of `namex` gives the reference it was given back, or trades it for the one it
returns. -/
theorem acct_namexLoop {Q : Option (IPtr × Str) → Own → Prop} (hnone : Q none m)
    (hsome : ∀ ip name, Q (some (ip, name)) (m.gain ip)) (ip : IPtr) (names : List Str) :
    (namexLoop parent ip names).wp acct (m.gain ip) Q := by
  induction names generalizing ip with
  | nil =>
    rw [namexLoop]
    split
    · rw [wp_bind]
      exact acct_iput_gain hnone
    · exact hsome _ _
  | cons name rest ih =>
    simp only [namexLoop, wp_bind, wp_issue, acct]
    intro f
    have hback : (iunlockput ip).wp acct (m.gain ip) fun _ m' => Q none m' :=
      acct_iput_gain hnone
    split
    · rw [wp_bind]
      exact hback
    split
    · exact hsome _ _
    rw [wp_bind]
    refine acct_dirlookup ?_ fun next off => ?_
    · rw [wp_bind]
      exact hback
    rw [wp_bind]
    exact acct_iput_below (ih next)

/-- The reference of the current directory is owned. -/
def Own.HasCwd (m : Own) : Prop := ∀ ip, m.self.cwd = some ip → ip ∈ m.inodes

theorem acct_namex {Q : Option (IPtr × Str) → Own → Prop}
    (hm : m.HasCwd) (hnone : Q none m) (hsome : ∀ ip name, Q (some (ip, name)) (m.gain ip)) :
    (namex path parent).wp acct m Q := by
  rw [namex]
  split
  · exact fun ip => acct_namexLoop hnone hsome ip _
  · exact fun ip hip => ⟨hm ip hip, acct_namexLoop hnone hsome ip _⟩

theorem acct_namei {Q : Option IPtr → Own → Prop}
    (hm : m.HasCwd) (hnone : Q none m) (hsome : ∀ ip, Q (some ip) (m.gain ip)) :
    (namei path).wp acct m Q := by
  rw [namei, wp_bind]
  exact acct_namex hm hnone fun ip _ => hsome ip

theorem Own.HasCwd.gain (hm : m.HasCwd) (ip : IPtr) : (m.gain ip).HasCwd := fun ip' h =>
  mem_cons_of_mem (hm ip' h)

/-! ### System calls that leave what they own as it was -/

theorem acct_linkBad (hQ : ∀ r, Q r m) : (linkBad ip).wp acct (m.gain ip) Q := by
  simp only [linkBad, wp_bind, wp_issue, acct]
  intro f
  exact acct_iput_gain (hQ _)

theorem acct_sysLink {old new : Str} (hm : m.HasCwd) (hQ : ∀ r, Q r m) : (sysLink old new).wp acct m Q := by
  rw [sysLink, wp_bind]
  refine acct_namei hm (hQ _) fun ip => ?_
  simp only [wp_bind, wp_issue, acct]
  intro f
  split
  · rw [wp_bind]
    exact acct_iput_gain (hQ _)
  · simp only [wp_bind, wp_issue, acct]
    refine acct_namex (hm.gain ip) (acct_linkBad hQ) fun dp name => ?_
    simp only [wp_bind, wp_issue, acct]
    intro inum
    refine acct_dirlink fun r => ?_
    -- on both paths the reference to `dp` goes first
    split <;> rw [wp_bind] <;> refine acct_iput_gain ?_
    · exact acct_linkBad hQ
    rw [wp_bind]
    exact acct_iput_gain (hQ _)

theorem acct_unlinkEntry {off : Nat} (hQ : ∀ r, Q r m) : (unlinkEntry dp ip off).wp acct ((m.gain dp).gain ip) Q := by
  -- the two references that are left go in this order
  have htail : (iunlockput dp).wp acct ((m.gain dp).gain ip) fun _ m' =>
      IFields → (iunlockput ip).wp acct m' fun _ m' => Q 0 m' := by
    refine acct_iput_below fun _ => ?_
    exact acct_iput_gain (hQ _)
  simp only [unlinkEntry, wp_bind, wp_issue, acct, wp_pure]
  intro n
  split
  · exact acct_panic (by decide)
  intro f
  split
  · exact fun _ => htail
  · exact htail

theorem acct_sysUnlink (hm : m.HasCwd) (hQ : ∀ r, Q r m) : (sysUnlink path).wp acct m Q := by
  rw [sysUnlink, wp_bind]
  refine acct_namex hm (hQ _) fun dp name => ?_
  have hbad : (do iunlockput dp; return -1 : FsProg Int).wp acct (m.gain dp) Q := by
    rw [wp_bind]
    exact acct_iput_gain (hQ _)
  simp only [wp_bind, wp_issue, acct]
  split
  · exact hbad
  rw [wp_bind]
  refine acct_dirlookup hbad fun ip off => ?_
  simp only [wp_bind, wp_issue, acct]
  intro f
  have hgo : ∀ empty : Bool, (if empty then unlinkEntry dp ip off else do
      iunlockput ip
      iunlockput dp
      return -1 : FsProg Int).wp acct ((m.gain dp).gain ip) Q := by
    intro empty
    split
    · exact acct_unlinkEntry hQ
    rw [wp_bind]
    exact acct_iput_gain hbad
  split
  · exact acct_panic (by decide)
  rw [wp_bind]
  split
  · exact acct_isdirempty hgo
  · exact hgo true

variable {type major minor : Int16}

theorem acct_createNew {Q : IPtr → Own → Prop} (hQ : ∀ ip, Q ip (m.gain ip)) :
    (createNew dp name type major minor).wp acct (m.gain dp) Q := by
  have htail : ∀ (ip : IPtr) (inum : Nat), (dirlink dp name inum).wp acct ((m.gain dp).gain ip)
      fun r m' => (if r < 0 then panic "create: dirlink" else do
        iunlockput dp
        return ip : FsProg IPtr).wp acct m' Q := by
    intro ip inum
    refine acct_dirlink fun r => ?_
    split
    · exact acct_panic (by decide)
    rw [wp_bind]
    exact acct_iput_below (hQ ip)
  simp only [createNew, ialloc, wp_bind, wp_issue, acct]
  intro inum ip f
  split
  · simp only [createDots, wp_bind, wp_issue, acct]
    intro fd inum
    refine acct_dirlink fun r => ?_
    split
    · exact acct_panic (by decide)
    simp only [wp_bind, wp_issue, acct]
    intro dinum
    refine acct_dirlink fun r => ?_
    split
    · exact acct_panic (by decide)
    · exact htail ip
  · exact htail ip

theorem acct_create {Q : Option IPtr → Own → Prop}
    (hm : m.HasCwd) (hnone : Q none m) (hsome : ∀ ip, Q (some ip) (m.gain ip)) :
    (create path type major minor).wp acct m Q := by
  rw [create, wp_bind]
  refine acct_namex hm hnone fun dp name => ?_
  simp only [wp_bind, wp_issue, acct]
  refine acct_dirlookup ?_ fun ip off => ?_
  · rw [wp_bind]
    exact acct_createNew hsome
  rw [wp_bind]
  refine acct_iput_below ?_
  simp only [wp_bind, wp_issue, acct]
  intro f
  split
  · exact hsome ip
  rw [wp_bind]
  exact acct_iput_gain hnone

theorem acct_mkNode
    (hm : m.HasCwd) (hQ : ∀ r, Q r m) :
    (create path type major minor).wp acct m fun r m' =>
      (match r with
        | none => return -1
        | some ip => do
          iunlockput ip
          return 0 : FsProg Int).wp acct m' Q := by
  refine acct_create hm (hQ _) fun ip => ?_
  rw [wp_bind]
  exact acct_iput_gain (hQ _)

/-! ### System calls on files and descriptors -/

/-- `fileclose` gives one reference to the file back, and with the last one the
reference to the inode or the end of the pipe. -/
theorem acct_fileclose {Q : Unit → Own → Prop} (hf : f ∈ m.files) (hb : f ∉ m.blank)
    (hQ : Q () (m.loseFile f)) : (fileclose f).wp acct m Q := by
  simp only [fileclose, wp_bind, wp_issue, acct]
  refine ⟨hf, Or.inr ⟨hb, hQ, fun d => ⟨fun hd ip hip => ?_, fun hd i hi => ?_, fun hd => ?_⟩⟩⟩
  · have hpipe : d.type ≠ .pipe := fun h => by
      rcases hd with hd | hd <;> rw [h] at hd <;> cases hd
    simp only [hip]
    rw [if_neg hpipe, if_pos hd]
    exact acct_iput_gain hQ
  · simp only [hi]
    rw [if_pos hd]
    refine ⟨mem_cons_self .., ?_⟩
    rw [gainEnd_loseEnd]
    exact hQ
  · rw [if_neg (by simp [hd]), if_neg (by simp [hd])]
    exact hQ

theorem acct_fileclose_blank {Q : Unit → Own → Prop} (hf : f ∈ m.files) (hb : f ∈ m.blank)
    (hQ : Q () ((m.loseFile f).fill f)) : (fileclose f).wp acct m Q := by
  simp only [fileclose, wp_bind, wp_issue, acct]
  refine ⟨hf, Or.inl ⟨hb, fun d hd => ?_⟩⟩
  rw [if_neg (by simp [hd]), if_neg (by simp [hd])]
  exact hQ

variable {omode : UInt32}

theorem acct_openInode {Q : Option IPtr → Own → Prop}
    (hm : m.HasCwd) (hnone : Q none m) (hsome : ∀ ip, Q (some ip) (m.gain ip)) :
    (openInode path omode).wp acct m Q := by
  rw [openInode]
  split
  · exact acct_create hm hnone hsome
  rw [wp_bind]
  refine acct_namei hm hnone fun ip => ?_
  simp only [wp_bind, wp_issue, acct]
  intro f
  split
  · rw [wp_bind]
    exact acct_iput_gain hnone
  · exact hsome ip

/-- A descriptor for a file that was not open before. -/
theorem acct_sysOpen (hm : m.HasCwd) (hQ : ∀ r, Q r m) (hopen : ∀ f fd, m.self.ofile fd = none →
      ∀ r, Q r ((m.gainFile f).setSelf (m.self.setFd fd (some f)))) :
    (sysOpen path omode).wp acct m Q := by
  rw [sysOpen, wp_bind]
  refine acct_openInode hm (hQ _) fun ip => ?_
  have hbad : (iunlockput ip).wp acct (m.gain ip) fun _ m' => Q (-1) m' := by
    exact acct_iput_gain (hQ _)
  simp only [wp_bind, wp_issue, acct]
  intro i
  split
  · rw [wp_bind]
    exact hbad
  simp only [wp_bind, wp_issue, acct]
  refine ⟨hbad, fun f _ hb => ⟨?_, fun fd hfd => ?_⟩⟩
  · -- no descriptor is left
    refine acct_fileclose_blank (by simp [newFile]) (by simp [newFile]) ?_
    rw [abandon hb]
    exact hbad
  · refine fun i => ⟨mem_insert_self .., mem_cons_self .., ?_⟩
    rw [commit (m := m) hb]
    split
    · exact hopen f fd hfd _
    · exact hopen f fd hfd _

variable {n : Int}

theorem acct_argfd {Q : Option (Fd × FPtr) → Own → Prop} (hnone : Q none m)
    (hsome : ∀ fd f, m.self.ofile fd = some f → Q (some (fd, f)) m) : (argfd n).wp acct m Q := by
  rw [argfd]
  split
  · simp only [wp_bind, wp_issue, acct, wp_pure]
    rcases h : m.self.ofile _ with - | f
    · exact hnone
    · exact hsome _ f h
  · exact hnone

variable {x : Proc} {fd : Fd}

theorem Own.idle_hasCwd (x : Proc) : (idle x).HasCwd := by
  intro ip h
  have hx : x.cwd = some ip := h
  simp [idle, hx, one]

theorem Own.idle_files_of_fd (h : x.ofile fd = some f) : f ∈ (idle x).files := by
  have hle : one (x.ofile fd) ≤ fds x.ofile :=
    single_le_sum (f := fun fd => one (x.ofile fd)) (fun _ _ => zero_le) (mem_univ fd)
  rw [h] at hle
  exact singleton_le.mp hle

/-- A descriptor for one file more. -/
theorem Own.idle_gainFile (h : x.ofile fd = none) :
    ((idle x).gainFile f).setSelf (x.setFd fd (some f)) = idle (x.setFd fd (some f)) := by
  have hfds := fds_update x.ofile fd (some f)
  rw [h] at hfds
  have hfiles : f ::ₘ fds x.ofile = fds (update x.ofile fd (some f)) := by
    simpa [one, add_comm (fds x.ofile)] using hfds.symm
  simp [idle, gainFile, setFiles, setSelf, Proc.setFd, hfiles]

/-- One descriptor less. -/
theorem Own.idle_loseFile (h : x.ofile fd = some f) :
    ((idle x).loseFile f).setSelf (x.setFd fd none) = idle (x.setFd fd none) := by
  have hfds := fds_update x.ofile fd none
  rw [h] at hfds
  have hfiles : (fds x.ofile).erase f = fds (update x.ofile fd none) := by
    have hcons : fds x.ofile = f ::ₘ fds (update x.ofile fd none) := by
      simpa [one, add_comm (fds _) {f}] using hfds.symm
    rw [hcons, erase_cons_head]
  simp [idle, loseFile, setFiles, setSelf, Proc.setFd, hfiles]

theorem Own.idle_done (h : x.state = .live) : (idle x).Done :=
  ⟨rfl, fun hn => absurd h hn⟩

theorem acct_sysClose (n : Int) (hx : x.state = .live) : (sysClose n).wp acct (idle x) fun _ m => m.Done := by
  rw [sysClose, wp_bind]
  refine acct_argfd (idle_done hx) fun fd f hf => ?_
  simp only [wp_bind, wp_issue, acct]
  refine acct_fileclose (idle_files_of_fd hf) (notMem_empty _) ?_
  have hend : ((idle x).setSelf (x.setFd fd none)).loseFile f = idle (x.setFd fd none) :=
    idle_loseFile hf
  exact hend ▸ idle_done hx

theorem acct_sysDup (n : Int) (hx : x.state = .live) : (sysDup n).wp acct (idle x) fun _ m => m.Done := by
  rw [sysDup, wp_bind]
  refine acct_argfd (idle_done hx) fun fd f hf => ?_
  refine ⟨idle_done hx, fun fd' hfd' => ⟨idle_files_of_fd hf, by rintro ⟨⟩, ?_⟩⟩
  have hend : ((idle x).setSelf (x.setFd fd' (some f))).gainFile f
      = idle (x.setFd fd' (some f)) := idle_gainFile hfd'
  exact hend ▸ idle_done hx

/-- `chdir` trades the reference of the old directory for that of the new one. -/
theorem acct_sysChdir (path : Str) (hx : x.state = .live) : (sysChdir path).wp acct (idle x) fun _ m => m.Done := by
  rw [sysChdir, wp_bind]
  refine acct_namei (idle_hasCwd x) (idle_done hx) fun ip => ?_
  simp only [wp_bind, wp_issue, acct]
  intro f
  split
  · rw [wp_bind]
    exact acct_iput_gain (idle_done hx)
  · simp only [wp_bind, wp_issue, acct]
    intro old hold
    have hcwd : x.cwd = some old := hold
    refine acct_iput (mem_cons_of_mem (idle_hasCwd x old hold)) ?_
    have hswap : (ip ::ₘ ({old} : Multiset IPtr)).erase old = {ip} := by
      rw [← Multiset.cons_zero old, Multiset.cons_swap, Multiset.erase_cons_head, Multiset.cons_zero]
    have hend : (((idle x).gain ip).lose old).setSelf (x.setCwd (some ip))
        = idle (x.setCwd (some ip)) := by
      simp [idle, gain, lose, setInodes, setSelf, Proc.setCwd, hcwd, one, hswap]
    exact hend ▸ idle_done hx

/-! ### Reading, writing and pipes -/

/-- The process has the file open. -/
def Own.HasFile (m : Own) (f : FPtr) : Prop := f ∈ m.files ∧ f ∉ m.blank

theorem acct_onFile (go : FPtr → FsProg Int) (n : Int) (hx : x.state = .live)
    (hgo : ∀ f, (idle x).HasFile f → (go f).wp acct (idle x) fun _ m => m.Done) :
    (onFile go n).wp acct (idle x) fun _ m => m.Done := by
  rw [onFile, wp_bind]
  exact acct_argfd (idle_done hx) fun fd f hf => hgo f ⟨idle_files_of_fd hf, notMem_empty _⟩

theorem acct_transfer (hQ : ∀ r, Q r m) : (transfer n).wp acct m Q := by
  exact fun ok => hQ _

section

variable (hf : m.HasFile f) (hQ : ∀ r, Q r m)

include hf hQ

theorem acct_readInode : (readInode f ip n).wp acct m Q := by
  simp only [readInode, wp_bind, wp_issue, acct]
  refine ⟨hf.1, hf.2, fun d b ok => ?_⟩
  split
  · exact ⟨hf.1, hf.2, hQ _⟩
  · exact hQ _

theorem acct_fileread : (fileread f n).wp acct m Q := by
  simp only [fileread, wp_bind, wp_issue, acct]
  refine ⟨hf.1, hf.2, fun d => ?_⟩
  split
  · exact hQ _
  split
  · exact acct_transfer hQ
  · split
    · exact acct_transfer hQ
    · exact hQ _
  · split
    · exact acct_readInode hf hQ
    · exact acct_panic (by decide)
  · exact acct_panic (by decide)

theorem acct_writeLoop (rounds i : Nat) : (writeLoop f ip src n rounds i).wp acct m Q := by
  induction rounds generalizing i with
  | zero => exact hQ _
  | succ rounds ih =>
    rw [writeLoop]
    split
    · simp only [wp_bind, wp_issue, acct]
      refine ⟨hf.1, hf.2, fun d r => ?_⟩
      have hrest : (if r ≠ (min (n - i).toNat maxWrite : Nat) then return if (i : Int) = n then n else -1
          else writeLoop f ip src n rounds (i + min (n - i).toNat maxWrite) : FsProg Int).wp acct m Q := by
        split
        · exact hQ _
        · exact ih _
      split
      · exact ⟨hf.1, hf.2, hrest⟩
      · exact hrest
    · exact hQ _

theorem acct_filewrite : (filewrite f src n).wp acct m Q := by
  simp only [filewrite, wp_bind, wp_issue, acct]
  refine ⟨hf.1, hf.2, fun d => ?_⟩
  split
  · exact hQ _
  split
  · exact acct_transfer hQ
  · split
    · exact acct_transfer hQ
    · exact hQ _
  · split
    · exact acct_writeLoop hf hQ _ _
    · exact acct_panic (by decide)
  · exact acct_panic (by decide)

theorem acct_filestat : (filestat f).wp acct m Q := by
  simp only [filestat, wp_bind, wp_issue, acct]
  refine ⟨hf.1, hf.2, fun d => ?_⟩
  split
  · split
    · exact fun _ _ _ ok => hQ _
    · exact acct_panic (by decide)
  · exact hQ _

end

/-- `pipealloc` gives two files, or keeps none. -/
theorem acct_pipealloc {Q : Option (FPtr × FPtr) → Own → Prop} (hnone : Q none m)
    (hsome : ∀ f0 f1, f0 ∉ m.blank → f1 ∉ m.blank → Q (some (f0, f1)) ((m.gainFile f0).gainFile f1)) :
    (pipealloc : FsProg (Option (FPtr × FPtr))).wp acct m Q := by
  simp only [pipealloc, wp_bind, wp_issue, acct]
  refine ⟨hnone, fun f0 _ hb0 => ⟨?_, fun f1 hf1 hb1 => ⟨?_, ?_, ?_, ?_, ?_⟩⟩⟩
  · -- no second file
    refine acct_fileclose_blank (by simp [newFile]) (by simp [newFile]) ?_
    rw [abandon hb0]
    exact hnone
  · exact mem_insert_of_mem (mem_insert_self ..)
  · exact mem_insert_self ..
  · rintro rfl
    exact hf1 (mem_cons_self ..)
  · -- no memory
    have hne : f1 ≠ f0 := fun h => hf1 (h ▸ mem_cons_self ..)
    have hb1' : f1 ∉ m.blank := fun h => hb1 (mem_insert_of_mem h)
    show (do fileclose f0; fileclose f1; return none : FsProg (Option (FPtr × FPtr))).wp acct _ Q
    rw [wp_bind]
    refine acct_fileclose_blank (by simp [newFile]) (by simp [newFile]) ?_
    rw [abandon_first hne hb0, wp_bind]
    refine acct_fileclose_blank (by simp [newFile]) (by simp [newFile]) ?_
    rw [abandon hb1']
    exact hnone
  · have hne : f1 ≠ f0 := fun h => hf1 (h ▸ mem_cons_self ..)
    have hb1' : f1 ∉ m.blank := fun h => hb1 (mem_insert_of_mem h)
    rw [commit_pipe hne hb0 hb1']
    exact hsome f0 f1 hb0 hb1'

theorem acct_pipeBad {rf wf : FPtr} (hr : rf ∉ m.blank) (hw : wf ∉ m.blank)
    (hQ : Q (-1) m) : (pipeBad rf wf).wp acct ((m.gainFile rf).gainFile wf) Q := by
  rw [pipeBad, wp_bind]
  refine acct_fileclose (by simp) hr ?_
  rw [gainFile_gainFile_loseFile, wp_bind]
  refine acct_fileclose (by simp) hw ?_
  rw [gainFile_loseFile]
  exact hQ

/-- Descriptors are independent. -/
theorem Proc.setFd_comm {fd' : Fd} {f f' : Option FPtr} (x : Proc) (hne : fd' ≠ fd) :
    ((x.setFd fd' f).setFd fd f') = (x.setFd fd f').setFd fd' f := by
  simp [Proc.setFd, update_comm hne]

/-- A descriptor that is taken back. -/
theorem Proc.setFd_back {f : Option FPtr} (h : x.ofile fd = none) : (x.setFd fd f).setFd fd none = x := by
  simp [Proc.setFd, ← h]

theorem acct_sysPipe (hx : x.state = .live) : (sysPipe : FsProg Int).wp acct (idle x) fun _ m => m.Done := by
  rw [sysPipe, wp_bind]
  refine acct_pipealloc (idle_done hx) fun rf wf hr hw => ?_
  have hbad : (pipeBad rf wf).wp acct (((idle x).gainFile rf).gainFile wf) fun _ m => m.Done :=
    acct_pipeBad hr hw (idle_done hx)
  simp only [wp_bind, wp_issue, acct]
  refine ⟨hbad, fun fd0 (h0 : x.ofile fd0 = none) => ⟨?_, fun fd1 (h1 : (x.setFd fd0 (some rf)).ofile fd1 = none) ok => ?_⟩⟩
  · show (pipeBad rf wf).wp acct ((((idle x).gainFile rf).gainFile wf).setSelf
      ((x.setFd fd0 (some rf)).setFd fd0 none)) _
    rw [Proc.setFd_back h0]
    exact hbad
  · split
    · have hr' := idle_gainFile (f := rf) h0
      have hw' := idle_gainFile (f := wf) h1
      rw [← hr'] at hw'
      have hend : ((((idle x).gainFile rf).gainFile wf).setSelf
          ((x.setFd fd0 (some rf)).setFd fd1 (some wf))) = idle ((x.setFd fd0 (some rf)).setFd fd1 (some wf)) :=
        hw'
      exact hend ▸ idle_done hx
    · have hne : fd1 ≠ fd0 := by
        rintro rfl
        simp [Proc.setFd] at h1
      have h1' : x.ofile fd1 = none := by simpa [Proc.setFd, hne] using h1
      have hback : (((x.setFd fd0 (some rf)).setFd fd1 (some wf)).setFd fd0 none).setFd fd1 none = x := by
        rw [Proc.setFd_comm _ hne, Proc.setFd_back h0, Proc.setFd_back h1']
      show (pipeBad rf wf).wp acct ((((idle x).gainFile rf).gainFile wf).setSelf
        ((((x.setFd fd0 (some rf)).setFd fd1 (some wf)).setFd fd0 none).setFd fd1 none)) _
      rw [hback]
      exact hbad

/-! ### System calls on processes -/

theorem acct_loadseg {offset sz : Nat} {Q : Bool → Own → Prop} (hQ : ∀ r, Q r m) (n i : Nat) :
    (loadseg ip offset sz n i).wp acct m Q := by
  induction n generalizing i with
  | zero => exact hQ _
  | succ n ih =>
    rw [loadseg]
    split
    · simp only [wp_bind, wp_issue, acct]
      intro ok
      split
      · exact acct_panic (by decide)
      simp only [wp_bind, wp_issue, acct]
      intro b
      split
      · exact hQ _
      · exact ih _
    · exact hQ _

theorem acct_loadSegs {Q : Bool → Own → Prop} (hQ : ∀ r, Q r m) (n off : Nat) : (loadSegs ip n off).wp acct m Q := by
  induction n generalizing off with
  | zero => exact hQ _
  | succ n ih =>
    simp only [loadSegs, wp_bind, wp_issue, acct]
    intro b
    split
    · exact hQ _
    split
    · exact ih _
    split
    · exact hQ _
    split
    · exact hQ _
    simp only [wp_bind, wp_issue, acct]
    intro ok
    split
    · exact hQ _
    split
    · exact hQ _
    rw [wp_bind]
    refine acct_loadseg (fun r => ?_) _ _
    split
    · exact ih _
    · exact hQ _

theorem acct_loadElf {Q : Bool → Own → Prop} (hQ : ∀ r, Q r m) : (loadElf ip).wp acct m Q := by
  simp only [loadElf, wp_bind, wp_issue, acct]
  intro b
  split
  · exact hQ _
  split
  · exact hQ _
  simp only [wp_bind, wp_issue, acct]
  intro ok
  split
  · exact hQ _
  · exact acct_loadSegs hQ _ _

theorem acct_exec {argc : Nat} (hm : m.HasCwd) (hQ : ∀ r, Q r m) : (exec path argc).wp acct m Q := by
  rw [exec, wp_bind]
  refine acct_namei hm (hQ _) fun ip => ?_
  simp only [wp_bind, wp_issue, acct]
  refine acct_loadElf fun ok => acct_iput (by simp) ?_
  rw [gain_lose]
  split
  · exact hQ _
  · exact fun _ => hQ _

/-- Copying descriptors takes a reference to every file that is copied. -/
theorem acct_dupFds (hfd : ∀ fd f, m.self.ofile fd = some f → f ∈ m.files)
    (hb : m.blank = ∅) {Q : (Fd → Option FPtr) → Own → Prop}
    (hQ : ∀ ofile, Q ofile (m.setFiles (m.files + fds ofile))) (l : List Fd)
    (ofile : Fd → Option FPtr) (hfree : ∀ fd ∈ l, ofile fd = none) (hl : l.Nodup) :
    (dupFds l ofile).wp acct (m.setFiles (m.files + fds ofile)) Q := by
  induction l generalizing ofile with
  | nil => exact hQ ofile
  | cons fd l ih =>
    obtain ⟨hfdl, hl⟩ := List.nodup_cons.mp hl
    simp only [dupFds, wp_bind, wp_issue, acct]
    rcases hf : m.self.ofile fd with - | f
    · simp only [setFiles_self, hf]
      exact ih ofile (fun fd' h => hfree fd' (List.mem_cons_of_mem _ h)) hl
    simp only [setFiles_self, hf, wp_bind, wp_issue, acct]
    refine ⟨mem_add.mpr (Or.inl (hfd fd f hf)), by simp [hb], ?_⟩
    have hup := fds_update ofile fd (some f)
    rw [hfree fd List.mem_cons_self] at hup
    have hfiles : f ::ₘ (m.files + fds ofile)
        = m.files + fds (update ofile fd (some f)) := by
      have hup' : fds (update ofile fd (some f)) = fds ofile + {f} := by
        simpa [one] using hup
      rw [hup', ← add_assoc, ← singleton_add, add_comm]
    have hnext := ih (update ofile fd (some f)) (fun fd' h => by
      have hne : fd' ≠ fd := fun he => hfdl (he ▸ h)
      rw [update_of_ne hne]
      exact hfree fd' (List.mem_cons_of_mem _ h)) hl
    rw [← hfiles] at hnext
    exact hnext

/-- The child of `fork` gets what the parent has taken for it. -/
theorem acct_fork (hx : x.state = .live) : (fork : FsProg Int).wp acct (idle x) fun _ m => m.Done := by
  simp only [fork, wp_bind, wp_issue, acct]
  refine ⟨rfl, idle_done hx, fun np pid ok => ?_⟩
  split
  · exact ⟨rfl, idle_done hx⟩
  simp only [wp_bind, wp_issue, acct]
  have hstart : (idle x).setChild (some np) = ((idle x).setChild (some np)).setFiles
      (((idle x).setChild (some np)).files + fds fun _ => none) := by
    rw [fds_none, add_zero]
    rfl
  rw [hstart]
  refine acct_dupFds (fun _ _ => idle_files_of_fd) rfl (fun ofile ip hip => ?_) _ _
    (fun _ _ => rfl) (List.nodup_finRange _)
  refine ⟨idle_hasCwd x ip hip, rfl, rfl, mem_cons_self .., ?_, ?_⟩
  · exact Multiset.le_add_left ..
  · rw [gain_lose]
    simpa [setFiles, setChild, gain, setInodes, idle] using idle_done hx

/-- Closing descriptors leaves a process that owns what its fields point to. -/
theorem acct_closeFds {Q : Unit → Own → Prop} (l : List Fd) (x : Proc)
    (hQ : ∀ y : Proc, y.state = x.state → y.cwd = x.cwd →
      (∀ fd, y.ofile fd = if fd ∈ l then none else x.ofile fd) → Q () (idle y)) :
    (closeFds l).wp acct (idle x) Q := by
  induction l generalizing x with
  | nil => exact hQ x rfl rfl (by simp)
  | cons fd l ih =>
    simp only [closeFds, wp_bind, wp_issue, acct]
    rcases hf : x.ofile fd with - | f
    · simp only [idle, hf]
      refine ih x fun y hs hc hy => hQ y hs hc fun fd' => ?_
      rcases eq_or_ne fd' fd with rfl | he
      · rw [hy, hf]
        simp
      · rw [hy]
        simp [he]
    · simp only [idle, hf, wp_bind, wp_issue, acct]
      refine acct_fileclose (idle_files_of_fd hf) (notMem_empty _) ?_
      have hnext := ih (x.setFd fd none) fun y hs hc hy => hQ y hs hc fun fd' => by
        rcases eq_or_ne fd' fd with rfl | he
        · rw [hy]
          simp [Proc.setFd]
        · rw [hy]
          simp [he, Proc.setFd]
      rw [← idle_loseFile hf] at hnext
      exact hnext

theorem acct_exit (x : Proc) : (exit : FsProg Int).wp acct (idle x) fun _ m => m.Done := by
  simp only [exit, wp_bind, wp_issue, acct]
  intro init
  split
  · exact acct_panic (by decide)
  simp only [wp_bind, wp_issue, acct]
  refine acct_closeFds _ x fun y _ _ hy ip hip => ?_
  have hnull : y.ofile = fun _ => none := funext fun fd => by rw [hy]; simp [List.mem_finRange]
  have hcwd : y.cwd = some ip := hip
  refine acct_iput (idle_hasCwd y ip hip) ⟨?_, fun _ => ⟨rfl, hnull⟩⟩
  simp [idle, lose, setSelf, setInodes, Proc.setCwd, Proc.setState, hcwd, one]

/-- **Every system call settles its references.**  Started by a process that owns what its
current directory and its descriptors point to, a call ends, on each of its return paths,
with the process owning just that. -/
theorem prog_done (c : Syscall) (hx : x.state = .live) : (c.prog : FsProg Int).wp acct (idle x) fun _ m => m.Done := by
  have hcwd := idle_hasCwd x
  have hdone : ∀ _ : Int, (idle x).Done := fun _ => idle_done hx
  have harg : ∀ (p : Str → FsProg Int) (path : ArgStr),
      (∀ path, (p path).wp acct (idle x) fun _ m => m.Done) →
        (withArg p path).wp acct (idle x) fun _ m => m.Done := by
    intro p path h
    cases path
    · exact idle_done hx
    · exact h _
  rcases c with (⟨path, omode⟩ | path | ⟨path, major, minor⟩ | ⟨old, new⟩ | path | path | fd | _) |
    fd | ⟨path, argc⟩ | _ | _ | ⟨fd, n⟩ | ⟨fd, src, n⟩ | fd
  · refine harg _ _ fun path => acct_sysOpen hcwd hdone fun f fd hfd _ => ?_
    have hend : ((idle x).gainFile f).setSelf ((idle x).self.setFd fd (some f))
        = idle (x.setFd fd (some f)) := idle_gainFile hfd
    rw [hend]
    exact idle_done hx
  · exact harg _ _ fun path => by
      rw [sysMkdir, wp_bind]
      exact acct_mkNode hcwd hdone
  · exact harg _ _ fun path => by
      rw [sysMknod, wp_bind]
      exact acct_mkNode hcwd hdone
  · exact harg _ _ fun old => harg _ _ fun new => acct_sysLink hcwd hdone
  · exact harg _ _ fun path => acct_sysUnlink hcwd hdone
  · exact harg _ _ fun path => acct_sysChdir path hx
  · exact acct_sysClose fd hx
  · exact acct_exit x
  · exact acct_sysDup fd hx
  · exact harg _ _ fun path => acct_exec hcwd hdone
  · exact acct_fork hx
  · exact acct_sysPipe hx
  · exact acct_onFile _ _ hx fun _ hf => acct_fileread hf hdone
  · exact acct_onFile _ _ hx fun _ hf => acct_filewrite hf hdone
  · exact acct_onFile _ _ hx fun _ hf => acct_filestat hf hdone

end Programs

end Xv6.Sys
