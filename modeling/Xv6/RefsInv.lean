/-
Xv6/RefsInv.lean

The reference counts of the inode table and of the file table are exact, and so are
the ends of pipes.

`Acc k own` says that the counts in the tables of `k` are those that the owners
make up, where `own` gives what each process in a call owns; the others own what
their own fields point to.  The operations keep it as `acct` says
(`perform_acc`), which is proved once for an operation that leaves the other
processes alone (`Acc.step`) and three times more for those with which `fork`
makes a child.

`PoolInv` adds that the rest of every call in progress meets `acct`, starting
from what its process owns.  It holds at every moment of every interleaving.
When no call is in progress, the owners are the current directories and the
descriptors, and `inode_refs_exact` is what `Acc` says then.
-/
import Xv6.Refs

namespace Xv6.Sys

open Finset Function Option Own Machine

/-- The file is open on the entry of the inode table. -/
def Points (x : File) (e : IPtr) : Prop := 0 < x.ref ∧ x.data.IsInode ∧ x.data.ip = some e

instance (x : File) (e : IPtr) : Decidable (Points x e) := inferInstanceAs (Decidable (_ ∧ _))

/-- The number of files that are open on an entry. -/
def filesAt (k : Kernel) (e : IPtr) : Nat := #{f | Points (k.file f) e}

/-- The file is an end of a pipe. -/
def OnEnd (x : File) (e : Nat × Bool) : Prop :=
  0 < x.ref ∧ x.data.type = .pipe ∧ x.data.pipe = some e.1 ∧ x.data.writable = e.2

instance (x : File) (e : Nat × Bool) : Decidable (OnEnd x e) := inferInstanceAs (Decidable (_ ∧ _))

/-- The number of files that are one end of a pipe. -/
def endsAt (k : Kernel) (e : Nat × Bool) : Nat := #{f | OnEnd (k.file f) e}

/-- The number of processes whose current directory an entry is. -/
def cwdsAt (k : Kernel) (e : IPtr) : Nat := #{p | (k.proc p).cwd = some e}

/-- What a process owns. -/
def holds (k : Kernel) (own : PPtr → Option Own) (q : PPtr) : Own :=
  (own q).getD (idle (k.proc q))

/-- What is true of every file. -/
structure File.Ok (x : File) : Prop where
  /-- A file that is open on an inode points to one. -/
  open_ : 0 < x.ref → x.data.IsInode → ∃ ip, x.data.ip = some ip
  /-- A file that is open on a pipe is one end of it. -/
  piped : 0 < x.ref → x.data.type = .pipe → (∃ i, x.data.pipe = some i) ∧ x.data.readable = !x.data.writable
  /-- A file that nobody refers to stands for nothing. -/
  free : x.ref = 0 → x.data.type = .none

/-- A page is freed once, when its second end is closed. -/
structure PagesOk (k : Kernel) : Prop where
  used : ∀ i < k.npipes, (k.pipe i).kfrees = if (k.pipe i).readopen ∨ (k.pipe i).writeopen then 0 else 1
  unused : ∀ i, k.npipes ≤ i → k.pipe i = .none

/-- One end of a pipe, as a number. -/
def openEnd (k : Kernel) (e : Nat × Bool) : Nat := if (k.pipe e.1).isOpen e.2 then 1 else 0

/-- The counts in the tables are those that the owners make up. -/
structure Acc (k : Kernel) (own : PPtr → Option Own) : Prop where
  uniq : k.tab.Uniq
  ref : ∀ e, (k.tab e).ref = filesAt k e + ∑ q, (holds k own q).inodes.count e
  fref : ∀ f, (k.file f).ref = ∑ q, (holds k own q).files.count f
  ends : ∀ e, openEnd k e = endsAt k e + ∑ q, (holds k own q).ends.count e
  file : ∀ f, (k.file f).Ok
  pages : PagesOk k
  /-- A process in a call knows its own fields, and is live or about to be a zombie. -/
  self : ∀ q m, own q = some m → m.self = k.proc q
  busy : ∀ q m, own q = some m → (k.proc q).state = .live ∨ (k.proc q).state = .zombie
  /-- The only reference to a file that is not open yet is the one of its owner. -/
  blank : ∀ q m f, own q = some m → f ∈ m.blank →
    f ∈ m.files ∧ (k.file f).ref = 1 ∧ (k.file f).data.type = .none
  child : ∀ q m np, own q = some m → m.child = some np →
    own np = none ∧ (k.proc np).state = .used
  childUniq : ∀ q q' m m' np, own q = some m → own q' = some m' → m.child = some np →
    m'.child = some np → q = q'
  /-- The fields of a process that is not live point to nothing. -/
  dead : ∀ q, own q = none → (k.proc q).state ≠ .live →
    (k.proc q).cwd = none ∧ (k.proc q).ofile = fun _ => none

section Holds

variable {k k' : Kernel} {own : PPtr → Option Own} {p : PPtr} {m m' : Own}

theorem holds_of_some (hp : own p = some m) : holds k own p = m := by
  simp [holds, hp]

theorem holds_of_none (hp : own p = none) : holds k own p = idle (k.proc p) := by
  simp [holds, hp]

/-- One process comes to own something else; the fields of the others are as they were. -/
theorem holds_update (hproc : ∀ q, q ≠ p → k'.proc q = k.proc q) :
    holds k' (update own p (some m')) = update (holds k own) p m' := by
  funext q
  rcases eq_or_ne q p with rfl | hq
  · simp [holds]
  · rw [update_of_ne hq, holds, holds, update_of_ne hq, hproc q hq]

/-- Replacing one file trades its part in a count. -/
theorem card_setFile (P : File → Prop) [DecidablePred P] (k : Kernel) (f : FPtr) (x : File) :
    #{g | P ((k.setFile f x).file g)} + (if P (k.file f) then 1 else 0)
      = #{g | P (k.file g)} + if P x then 1 else 0 := by
  rw [card_filter, card_filter]
  exact sum_update_trade (fun x => if P x then 1 else 0) k.file f x

theorem filesAt_congr (h : k'.file = k.file) (e : IPtr) : filesAt k' e = filesAt k e := by
  rw [filesAt, filesAt, h]

theorem endsAt_congr (h : k'.file = k.file) (e : Nat × Bool) : endsAt k' e = endsAt k e := by
  rw [endsAt, endsAt, h]

/-- Two owners of a file are two references to it. -/
theorem Acc.two_le_fref (h : Acc k own) {q : PPtr} (hpq : q ≠ p) {mq : Own} {f : FPtr}
    (hp : own p = some m) (hq : own q = some mq) (hf : f ∈ m.files) (hf' : f ∈ mq.files) :
    2 ≤ (k.file f).ref := by
  have hle : ∑ r ∈ {q, p}, (holds k own r).files.count f ≤ (k.file f).ref := by
    rw [h.fref f]
    exact sum_le_sum_of_subset (subset_univ _)
  rw [sum_pair hpq, holds_of_some hp, holds_of_some hq] at hle
  have := Multiset.one_le_count_iff_mem.mpr hf
  have := Multiset.one_le_count_iff_mem.mpr hf'
  omega

end Holds

/-! ### One operation -/

section Step

variable {k k' : Kernel} {own : PPtr → Option Own} {p : PPtr} {m m' : Own} {np : PPtr} {f : FPtr} {tab : Table Unit}
  {x : Entry Unit} {ip : IPtr}

section

variable (h : Acc k own) (hp : own p = some m)

include h hp

/-- **An operation that leaves the other processes alone.**  The counts change by what the
caller comes to own, and files change that it owns or that nobody does. -/
theorem Acc.step (huniq : k'.tab.Uniq) (href : ∀ e, (k'.tab e).ref + (filesAt k e + m.inodes.count e)
      = (k.tab e).ref + (filesAt k' e + m'.inodes.count e))
    (hfref : ∀ f, (k'.file f).ref + m.files.count f = (k.file f).ref + m'.files.count f)
    (hends : ∀ e, openEnd k' e + (endsAt k e + m.ends.count e)
      = openEnd k e + (endsAt k' e + m'.ends.count e))
    (hok : ∀ f, (k'.file f).Ok) (hpages : PagesOk k')
    (hfile : ∀ f, k'.file f = k.file f ∨ f ∈ m.files ∨ (k.file f).ref = 0)
    (hproc : ∀ q, q ≠ p → k'.proc q = k.proc q) (hself : m'.self = k'.proc p)
    (hbusy : (k'.proc p).state = .live ∨ (k'.proc p).state = .zombie)
    (hblank : ∀ f, f ∈ m'.blank →
      f ∈ m'.files ∧ (k'.file f).ref = 1 ∧ (k'.file f).data.type = .none)
    (hchild : m'.child = m.child) : Acc k' (update own p (some m')) := by
  have hholds : holds k' (update own p (some m')) = update (holds k own) p m' :=
    holds_update hproc
  have hof : ∀ {q mq}, update own p (some m') q = some mq → q ≠ p → own q = some mq :=
    fun hq hne => by rwa [update_of_ne hne] at hq
  have hofp : ∀ {mq}, update own p (some m') p = some mq → m' = mq := fun hq => by
    simpa using hq
  refine
    { uniq := huniq
      ref := fun e => ?_
      fref := fun f => ?_
      ends := fun e => ?_
      file := hok
      pages := hpages
      self := fun q mq hq => ?_
      busy := fun q mq hq => ?_
      blank := fun q mq f hq hf => ?_
      child := fun q mq np hq hnp => ?_
      childUniq := fun q q' mq mq' np hq hq' hnp hnp' => ?_
      dead := fun q hq hs => ?_ }
  · have htrade := sum_update_trade (fun m : Own => m.inodes.count e) (holds k own) p m'
    simp only [holds_of_some hp] at htrade
    rw [hholds]
    have hr := h.ref e
    have hr' := href e
    omega
  · have htrade := sum_update_trade (fun m : Own => m.files.count f) (holds k own) p m'
    simp only [holds_of_some hp] at htrade
    rw [hholds]
    have hr := h.fref f
    have hr' := hfref f
    omega
  · have htrade := sum_update_trade (fun m : Own => m.ends.count e) (holds k own) p m'
    simp only [holds_of_some hp] at htrade
    rw [hholds]
    have hr := h.ends e
    have hr' := hends e
    omega
  · rcases eq_or_ne q p with rfl | hne
    · rw [← hofp hq, hself]
    · rw [hproc q hne]
      exact h.self q mq (hof hq hne)
  · by_cases hne : q = p
    · rw [hne]
      exact hbusy
    · rw [hproc q hne]
      exact h.busy q mq (hof hq hne)
  · rcases eq_or_ne q p with rfl | hne
    · rw [← hofp hq] at hf ⊢
      exact hblank f hf
    -- the file of another process is one that the caller has nothing to do with
    obtain ⟨hmem, hone, htype⟩ := h.blank q mq f (hof hq hne) hf
    rcases hfile f with heq | hown | hzero
    · rw [heq]
      exact ⟨hmem, hone, htype⟩
    · have := h.two_le_fref hne hp (hof hq hne) hown hmem
      omega
    · omega
  · have hold : ∃ mo, own q = some mo ∧ mo.child = some np := by
      rcases eq_or_ne q p with rfl | hne
      · exact ⟨m, hp, by rw [← hchild, hofp hq]; exact hnp⟩
      · exact ⟨mq, hof hq hne, hnp⟩
    obtain ⟨mo, hmo, hmonp⟩ := hold
    obtain ⟨hnone, hused⟩ := h.child q mo np hmo hmonp
    have hne : np ≠ p := fun he => by rw [he, hp] at hnone; cases hnone
    rw [update_of_ne hne, hproc np hne]
    exact ⟨hnone, hused⟩
  · have hold : ∀ {r mr}, update own p (some m') r = some mr → mr.child = some np →
        ∃ mo, own r = some mo ∧ mo.child = some np := by
      intro r mr hr hrnp
      rcases eq_or_ne r p with rfl | hne
      · exact ⟨m, hp, by rw [← hchild, hofp hr]; exact hrnp⟩
      · exact ⟨mr, hof hr hne, hrnp⟩
    obtain ⟨mo, hmo, hmonp⟩ := hold hq hnp
    obtain ⟨mo', hmo', hmonp'⟩ := hold hq' hnp'
    exact h.childUniq q q' mo mo' np hmo hmo' hmonp hmonp'
  · have hne : q ≠ p := fun he => by rw [he, update_self] at hq; cases hq
    rw [update_of_ne hne] at hq
    rw [hproc q hne] at hs ⊢
    exact h.dead q hq hs

/-- An operation that leaves files, pipes and processes alone. -/
theorem Acc.quiet (huniq : k'.tab.Uniq)
    (href : ∀ e, (k'.tab e).ref + m.inodes.count e = (k.tab e).ref + m'.inodes.count e)
    (hm : m' = m.setInodes m'.inodes) (hfile : k'.file = k.file) (hpipe : k'.pipe = k.pipe)
    (hnp : k'.npipes = k.npipes) (hproc : k'.proc = k.proc) : Acc k' (update own p (some m')) := by
  rw [hm]
  refine h.step hp huniq (fun e => ?_) (fun f => ?_) (fun e => ?_) ?_ ⟨?_, ?_⟩ (fun f => ?_) (fun q _ => ?_) ?_ ?_ ?_
    rfl
  · have := href e
    rw [filesAt_congr hfile]
    show _ = _ + (_ + m'.inodes.count e)
    omega
  · rw [hfile]
    rfl
  · rw [openEnd, hpipe, endsAt_congr hfile]
    rfl
  · rw [hfile]
    exact h.file
  · rw [hpipe, hnp]
    exact h.pages.used
  · rw [hpipe, hnp]
    exact h.pages.unused
  · exact Or.inl (by rw [hfile])
  · rw [hproc]
  · rw [hproc]
    exact h.self p m hp
  · rw [hproc]
    exact h.busy p m hp
  · rw [hfile]
    exact fun f => h.blank p m f hp

/-- An operation after which the caller owns what it did. -/
theorem Acc.same (htab : ∀ e, (k'.tab e).ref = (k.tab e).ref ∧ (k'.tab e).inum = (k.tab e).inum)
    (hfile : k'.file = k.file) (hpipe : k'.pipe = k.pipe) (hnp : k'.npipes = k.npipes)
    (hproc : k'.proc = k.proc) : Acc k' (update own p (some m)) := by
  refine h.quiet hp ?_ (fun e => by rw [(htab e).1]) rfl hfile hpipe hnp hproc
  intro e e' he he' hee
  rw [(htab e).1] at he
  rw [(htab e').1] at he'
  rw [(htab e).2, (htab e').2] at hee
  exact h.uniq e e' he he' hee

theorem Acc.same_entry (href : x.ref = (k.tab ip).ref) (hinum : x.inum = (k.tab ip).inum) :
    Acc (k.setEntry ip x) (update own p (some m)) := by
  refine h.same hp (fun e => ?_) rfl rfl rfl rfl
  rcases eq_or_ne e ip with rfl | he
  · simp [Kernel.setEntry, href, hinum]
  · simp [Kernel.setEntry, he]

omit hp

/-- Locks are not counted. -/
theorem Acc.setLock (ip : IPtr) (q : Option PPtr) : Acc (k.setLock ip q) own :=
  { h with pages := ⟨h.pages.used, h.pages.unused⟩ }

section

variable (hp : own p = some m)

include hp

/-- An operation on the inode table. -/
theorem Acc.table {l : Multiset IPtr}
    (huniq : tab.Uniq) (href : ∀ e, (tab e).ref + m.inodes.count e = (k.tab e).ref + l.count e) :
    Acc (k.setTab tab) (update own p (some (m.setInodes l))) :=
  h.quiet hp huniq href rfl rfl rfl rfl rfl

/-- An operation on the fields of the caller. -/
theorem Acc.self_update {x : Proc} (hx : x.state = .live ∨ x.state = .zombie) :
    Acc (k.setProc p x) (update own p (some (m.setSelf x))) := by
  refine h.step hp h.uniq (fun e => rfl) (fun _ => rfl) (fun _ => rfl) h.file ⟨h.pages.used, h.pages.unused⟩
    (fun _ => Or.inl rfl) (fun q hq => ?_) ?_ ?_ (fun f => h.blank p m f hp) rfl
  · simp [hq]
  · simp
  · simpa using hx

/-- An operation on one file, which the caller owns or nobody does. -/
theorem Acc.file_update {x : File} (hown : f ∈ m.files ∨ (k.file f).ref = 0)
    (hpts : ∀ e, (if Points (k.file f) e then 1 else 0) + m.inodes.count e
      = (if Points x e then 1 else 0) + m'.inodes.count e)
    (hends : ∀ e, (if OnEnd (k.file f) e then 1 else 0) + m.ends.count e
      = (if OnEnd x e then 1 else 0) + m'.ends.count e)
    (hcount : x.ref + m.files.count f = (k.file f).ref + m'.files.count f)
    (hother : ∀ f', f' ≠ f → m.files.count f' = m'.files.count f') (hok : x.Ok)
    (hblank : ∀ f', f' ∈ m'.blank → f' ≠ f ∧ f' ∈ m.blank ∨
      f' = f ∧ f ∈ m'.files ∧ x.ref = 1 ∧ x.data.type = .none)
    (hself : m'.self = m.self) (hchild : m'.child = m.child) :
    Acc (k.setFile f x) (update own p (some m')) := by
  refine h.step hp h.uniq (fun e => ?_) (fun f' => ?_) (fun e => ?_) (fun f' => ?_)
    ⟨h.pages.used, h.pages.unused⟩ (fun f' => ?_) (fun _ _ => rfl) (hself.trans (h.self p m hp))
    (h.busy p m hp) (fun f' hf' => ?_) hchild
  · have hset := card_setFile (Points · e) k f x
    have hp := hpts e
    simp only [filesAt]
    show (k.tab e).ref + _ = (k.tab e).ref + _
    omega
  · rcases eq_or_ne f' f with rfl | he
    · simpa using hcount
    · simp [he, hother f' he]
  · have hset := card_setFile (OnEnd · e) k f x
    have he := hends e
    simp only [endsAt]
    show openEnd k e + _ = openEnd k e + _
    omega
  · rcases eq_or_ne f' f with rfl | he
    · simpa using hok
    · simpa [he] using h.file f'
  · by_cases he : f' = f
    · exact Or.inr (he ▸ hown)
    · exact Or.inl (by simp [he])
  · rcases hblank f' hf' with ⟨hne, hb⟩ | ⟨rfl, hmem, hone, htype⟩
    · obtain ⟨hmem, hone, htype⟩ := h.blank p m f' hp hb
      refine ⟨?_, by simpa [hne] using hone, by simpa [hne] using htype⟩
      rw [← Multiset.one_le_count_iff_mem] at hmem ⊢
      exact hother f' hne ▸ hmem
    · exact ⟨hmem, by simpa using hone, by simpa using htype⟩

/-- An operation on a process that is not in a call. -/
theorem Acc.child_update (hnp : own np = none) {x : Proc} (hin : ∀ e, (one x.cwd).count e + m'.inodes.count e
      = (one (k.proc np).cwd).count e + m.inodes.count e)
    (hfl : ∀ f, (fds x.ofile).count f + m'.files.count f
      = (fds (k.proc np).ofile).count f + m.files.count f)
    (hen : m'.ends = m.ends) (hself : m'.self = m.self) (hblank : m'.blank = m.blank)
    (hbf : ∀ f, f ∈ m.blank → f ∈ m.files → f ∈ m'.files)
    (hchild : ∀ np', m'.child = some np' → np' = np ∧ x.state = .used)
    (hother : ∀ q mq, q ≠ p → own q = some mq → mq.child ≠ some np)
    (hdead : x.state ≠ .live → x.cwd = none ∧ x.ofile = fun _ => none) :
    Acc (k.setProc np x) (update own p (some m')) := by
  have hne : np ≠ p := fun he => by rw [he, hp] at hnp; cases hnp
  have hholds : holds (k.setProc np x) (update own p (some m'))
      = update (update (holds k own) p m') np (idle x) := by
    funext q
    rcases eq_or_ne q np with rfl | hqn
    · simp [holds, hne, hnp]
    have hback : holds k (update own p (some m')) = update (holds k own) p m' :=
      holds_update fun _ _ => rfl
    rw [← hback]
    simp [holds, hqn]
  have hbase : update (holds k own) p m' np = idle (k.proc np) := by
    rw [update_of_ne hne, holds_of_none hnp]
  -- a count is traded first at the caller, then at the other process
  have htrade : ∀ g : Own → Nat, g (idle x) + g m' = g (idle (k.proc np)) + g m →
      ∑ q, g (holds (k.setProc np x) (update own p (some m')) q) = ∑ q, g (holds k own q) := by
    intro g hg
    have h₁ := sum_update_trade g (holds k own) p m'
    have h₂ := sum_update_trade g (update (holds k own) p m') np (idle x)
    rw [hbase] at h₂
    rw [holds_of_some hp] at h₁
    rw [hholds]
    omega
  have hof : ∀ {q mq}, update own p (some m') q = some mq → q ≠ p → own q = some mq :=
    fun hq hqp => by rwa [update_of_ne hqp] at hq
  have hofp : ∀ {mq}, update own p (some m') p = some mq → m' = mq := fun hq => by
    simpa using hq
  have hsome : ∀ {q mq}, update own p (some m') q = some mq → q ≠ np := by
    intro q mq hq he
    rw [he, update_of_ne hne, hnp] at hq
    cases hq
  refine
    { uniq := h.uniq
      ref := fun e => ?_
      fref := fun f => ?_
      ends := fun e => ?_
      file := h.file
      pages := ⟨h.pages.used, h.pages.unused⟩
      self := fun q mq hq => ?_
      busy := fun q mq hq => ?_
      blank := fun q mq f hq hf => ?_
      child := fun q mq np' hq hnp' => ?_
      childUniq := fun q q' mq mq' np' hq hq' hnp' hnp'' => ?_
      dead := fun q hq hs => ?_ }
  · rw [htrade (fun m => m.inodes.count e) (hin e)]
    exact h.ref e
  · rw [htrade (fun m => m.files.count f) (hfl f)]
    exact h.fref f
  · rw [htrade (fun m => m.ends.count e) (by rw [hen]; rfl)]
    exact h.ends e
  · have hqn := hsome hq
    rw [Kernel.setProc_proc, update_of_ne hqn]
    rcases eq_or_ne q p with rfl | hqp
    · rw [← hofp hq, hself, h.self q m hp]
    · exact h.self q mq (hof hq hqp)
  · rw [Kernel.setProc_proc, update_of_ne (hsome hq)]
    by_cases hqp : q = p
    · exact hqp ▸ h.busy p m hp
    · exact h.busy q mq (hof hq hqp)
  · rcases eq_or_ne q p with rfl | hqp
    · rw [← hofp hq, hblank] at hf
      obtain ⟨hmem, hrest⟩ := h.blank q m f hp hf
      exact ⟨hofp hq ▸ hbf f hf hmem, hrest⟩
    · exact h.blank q mq f (hof hq hqp) hf
  · rcases eq_or_ne q p with rfl | hqp
    · rw [← hofp hq] at hnp'
      obtain ⟨rfl, hused⟩ := hchild np' hnp'
      rw [update_of_ne hne, Kernel.setProc_proc, update_self]
      exact ⟨hnp, hused⟩
    · obtain ⟨hnone, hused⟩ := h.child q mq np' (hof hq hqp) hnp'
      have hne' : np' ≠ np := fun he => hother q mq hqp (hof hq hqp) (he ▸ hnp')
      have hnep : np' ≠ p := fun he => by rw [he, hp] at hnone; cases hnone
      rw [update_of_ne hnep, Kernel.setProc_proc, update_of_ne hne']
      exact ⟨hnone, hused⟩
  · by_cases hqp : q = p <;> by_cases hqp' : q' = p
    · rw [hqp, hqp']
    · subst hqp
      rw [← hofp hq] at hnp'
      exact absurd ((hchild np' hnp').1 ▸ hnp'') (hother q' mq' hqp' (hof hq' hqp'))
    · subst hqp'
      rw [← hofp hq'] at hnp''
      exact absurd ((hchild np' hnp'').1 ▸ hnp') (hother q mq hqp (hof hq hqp))
    · exact h.childUniq q q' mq mq' np' (hof hq hqp) (hof hq' hqp') hnp' hnp''
  · have hqp : q ≠ p := fun he => by rw [he, update_self] at hq; cases hq
    rw [update_of_ne hqp] at hq
    rw [Kernel.setProc_proc] at hs ⊢
    rcases eq_or_ne q np with rfl | hqn
    · rw [update_self] at hs ⊢
      exact hdead hs
    · rw [update_of_ne hqn] at hs ⊢
      exact h.dead q hq hs

end

end

/-! ### Every operation -/

variable {hint : Bool} {o : FsOp} {w : Bool} {i : Nat}

/-- The inode table after a reference more or less. -/
theorem uniq_setRef (hu : tab.Uniq) (hinum : x.inum = (tab ip).inum) (hpos : 0 < (tab ip).ref) :
    Table.Uniq (update tab ip x) := by
  have hin : ∀ e, (update tab ip x e).inum = (tab e).inum := by
    intro e
    rcases eq_or_ne e ip with rfl | he
    · simpa using hinum
    · simp [he]
  have hp : ∀ e, 0 < (update tab ip x e).ref → 0 < (tab e).ref := by
    intro e h
    by_cases he : e = ip
    · exact he ▸ hpos
    · simpa [he] using h
  intro e e' he he' hee
  rw [hin, hin] at hee
  exact hu e e' (hp e he) (hp e' he') hee

section

variable (h : Acc k own) (hp : own p = some m)

include h hp

/-- A reference that is owned is counted. -/
theorem Acc.ref_pos (hip : ip ∈ m.inodes) : 0 < (k.tab ip).ref := by
  have hle : (holds k own p).inodes.count ip ≤ ∑ q, (holds k own q).inodes.count ip :=
    single_le_sum (f := fun q => (holds k own q).inodes.count ip) (fun _ _ => Nat.zero_le _)
      (mem_univ p)
  rw [holds_of_some hp] at hle
  have := Multiset.one_le_count_iff_mem.mpr hip
  have := h.ref ip
  omega

/-- A file that nobody refers to is not among those of a process. -/
theorem Acc.count_eq_zero (hf : (k.file f).ref = 0) : m.files.count f = 0 := by
  have hle : (holds k own p).files.count f ≤ ∑ q, (holds k own q).files.count f :=
    single_le_sum (f := fun q => (holds k own q).files.count f) (fun _ _ => Nat.zero_le _)
      (mem_univ p)
  rw [holds_of_some hp, ← h.fref f] at hle
  omega

theorem Acc.fref_pos (hf : f ∈ m.files) : 0 < (k.file f).ref := by
  rcases Nat.eq_zero_or_pos (k.file f).ref with h0 | hpos
  · exact absurd hf (Multiset.count_eq_zero.mp (h.count_eq_zero hp h0))
  · exact hpos

theorem Acc.iget {inum : Nat} (hg : Table.Got k.tab inum ip tab) :
    Acc (k.setTab tab) (update own p (some (m.gain ip))) := by
  refine h.table hp (hg.uniq h.uniq) fun e => ?_
  cases hg with
  | hit hpos hinum =>
    rcases eq_or_ne e ip with rfl | he
    · simp [Entry.dup]
      omega
    · simp [he]
  | recycled hzero hmiss =>
    rcases eq_or_ne e ip with rfl | he
    · simp [Entry.recycle, hzero]
      omega
    · simp [he]

theorem Acc.idup (hip : ip ∈ m.inodes) : Acc (k.setEntry ip (k.tab ip).dup) (update own p (some (m.gain ip))) := by
  refine h.table hp (uniq_setRef h.uniq rfl (h.ref_pos hp hip)) fun e => ?_
  rcases eq_or_ne e ip with rfl | he
  · simp [Entry.dup]
    omega
  · simp [he]

theorem Acc.idrop (hip : ip ∈ m.inodes) : Acc (k.setEntry ip (k.tab ip).drop) (update own p (some (m.lose ip))) := by
  have hpos := h.ref_pos hp hip
  refine h.table hp (uniq_setRef h.uniq rfl hpos) fun e => ?_
  rcases eq_or_ne e ip with rfl | he
  · have := Multiset.one_le_count_iff_mem.mpr hip
    simp [Entry.drop]
    omega
  · simp [he]

/-- The caller's `blank` aside, no operation of its own touches a file that is not open. -/
theorem Acc.filealloc (hf : (k.file f).ref = 0) :
    Acc (k.setFile f (k.file f).take) (update own p (some (m.newFile f))) := by
  have htype := (h.file f).free hf
  have hnone : (k.file f).take.data.type = .none := htype
  refine h.file_update hp (Or.inr hf) (fun e => ?_) (fun e => ?_) ?_ (fun f' hf' => ?_) ⟨?_, ?_, fun _ => htype⟩
    (fun f' hf' => ?_) rfl rfl
  · simp [Points, hf, FileData.IsInode, hnone, newFile, gainFile]
  · simp [OnEnd, hf, hnone, newFile, gainFile]
  · simp [File.take, hf, newFile]
    omega
  · simp [hf', newFile]
  · exact fun _ hin => by simp [FileData.IsInode, hnone] at hin
  · exact fun _ hpipe => by rw [hnone] at hpipe; cases hpipe
  · rcases mem_insert.mp hf' with rfl | hb
    · exact Or.inr ⟨rfl, by simp [newFile], rfl, htype⟩
    refine Or.inl ⟨fun he => ?_, hb⟩
    have := (h.blank p m f' hp hb).2.1
    rw [he, hf] at this
    cases this

/-- A file that stays what it is, with references more or less. -/
theorem Acc.file_ref (hf : f ∈ m.files)
    (hb : f ∉ m.blank) {x : File} {files : Multiset FPtr} (hdata : ∃ off, x.data = { (k.file f).data with off := off })
    (hx : 0 < x.ref) (hpos : 0 < (k.file f).ref)
    (hcount : x.ref + m.files.count f = (k.file f).ref + files.count f)
    (hother : ∀ f', f' ≠ f → m.files.count f' = files.count f') :
    Acc (k.setFile f x) (update own p (some (m.setFiles files))) := by
  obtain ⟨off, hdata⟩ := hdata
  have hok := h.file f
  refine h.file_update hp (Or.inl hf) (fun e => ?_) (fun e => ?_) hcount hother ⟨?_, ?_, ?_⟩
    (fun f' hf' => Or.inl ⟨fun he => hb (he ▸ hf'), hf'⟩) rfl rfl
  · simp [Points, hdata, hx, hpos]
  · simp [OnEnd, hdata, hx, hpos]
  · intro _
    rw [hdata]
    exact hok.open_ hpos
  · intro _
    rw [hdata]
    exact hok.piped hpos
  · intro h0
    omega

/-- The last reference to a file goes.  The reference of the file to an inode, or the end of
a pipe that it is, becomes the caller's. -/
theorem Acc.fileclose (m' : Own) (hf : f ∈ m.files) (hone : (k.file f).ref = 1) (hfiles : m'.files = m.files.erase f)
    (hin : ∀ e, (if Points (k.file f) e then 1 else 0) + m.inodes.count e = m'.inodes.count e)
    (hends : ∀ e, (if OnEnd (k.file f) e then 1 else 0) + m.ends.count e = m'.ends.count e)
    (hblank : m'.blank = m.blank.erase f) (hself : m'.self = m.self) (hchild : m'.child = m.child) :
    Acc (k.setFile f (k.file f).free) (update own p (some m')) := by
  have hpts : ∀ e, ¬ Points (k.file f).free e := fun e he => by simpa [File.free] using he.1
  have hnend : ∀ e, ¬ OnEnd (k.file f).free e := fun e he => by simpa [File.free] using he.1
  refine h.file_update hp (Or.inl hf) (fun e => ?_) (fun e => ?_) ?_ (fun f' hf' => ?_)
    ⟨fun h0 => ?_, fun h0 => ?_, fun _ => rfl⟩ (fun f' hf' => ?_) hself hchild
  · rw [if_neg (hpts e), hin e]
    omega
  · rw [if_neg (hnend e), hends e]
    omega
  · have := Multiset.one_le_count_iff_mem.mpr hf
    simp [File.free, hone, hfiles]
    omega
  · simp [hf', hfiles]
  · cases h0
  · cases h0
  · rw [hblank] at hf'
    exact Or.inl (mem_erase.mp hf')

theorem Acc.fileopen (hb : f ∈ m.blank) (hip : ip ∈ m.inodes) (device : Bool) (major : Int16)
    (readable writable : Bool) :
    Acc (k.setFile f ((k.file f).opened ip device major readable writable))
      (update own p (some ((m.lose ip).fill f))) := by
  obtain ⟨hmem, hone, htype⟩ := h.blank p m f hp hb
  have hpts : ∀ e, ¬ Points (k.file f) e := fun e he => by
    simpa [FileData.IsInode, htype] using he.2.1
  have hpts' : ∀ e, Points ((k.file f).opened ip device major readable writable) e ↔ ip = e := by
    intro e
    cases device <;> simp [Points, File.opened, FileData.IsInode, hone]
  have htype' : ((k.file f).opened ip device major readable writable).data.type ≠ .pipe := by
    cases device <;> simp [File.opened]
  refine h.file_update hp (Or.inl hmem) (fun e => ?_) (fun e => ?_) rfl (fun _ _ => rfl)
    ⟨fun _ _ => ⟨ip, rfl⟩, fun _ hpipe => absurd hpipe htype', fun h0 => ?_⟩
    (fun f' hf' => Or.inl (mem_erase.mp hf')) rfl rfl
  · rw [if_neg (hpts e)]
    rcases eq_or_ne ip e with rfl | he
    · have := Multiset.one_le_count_iff_mem.mpr hip
      simp [hpts', fill]
      omega
    · rw [if_neg (fun h => he ((hpts' e).mp h))]
      simp [fill, Multiset.count_erase_of_ne (Ne.symm he)]
  · have hold : ¬ OnEnd (k.file f) e := fun h => by
      have hpipe := h.2.1
      rw [htype] at hpipe
      cases hpipe
    rw [if_neg hold, if_neg fun h => htype' h.2.1]
    rfl
  · have hpos : ((k.file f).opened ip device major readable writable).ref = 1 := hone
    omega

/-- `fileunref` lets go of one reference, and of the file with the last one. -/
theorem Acc.fileunref {Q : Option FileData → Own → Prop} (hQ : acct (.fileunref f) m Q) {r : Option FileData}
    (hx : perform p hint k (.fileunref f) = .ok (k', r)) :
    ∃ m', Acc k' (update own p (some m')) ∧ Q r m' := by
  obtain ⟨hf, hQ⟩ := hQ
  have hcount := Multiset.one_le_count_iff_mem.mpr hf
  simp only [perform] at hx
  split at hx
  · cases hx
  split at hx
  · -- other references remain
    cases hx
    rcases hQ with ⟨hb, -⟩ | ⟨hb, hQ, -⟩
    · have := (h.blank p m f hp hb).2.1
      omega
    refine ⟨_, h.file_ref hp hf hb ⟨_, rfl⟩ ?_ ?_ ?_ ?_, hQ⟩
    · simp [File.drop]
      omega
    · omega
    · simp [File.drop]
      omega
    · exact fun f' hf' => by simp [hf']
  · cases hx
    have hone : (k.file f).ref = 1 := by omega
    have hok := h.file f
    rcases hQ with ⟨hb, hQ⟩ | ⟨hb, -, hQ⟩
    · -- a file that was not open yet
      have htype := (h.blank p m f hp hb).2.2
      refine ⟨_, h.fileclose hp ((m.loseFile f).fill f) hf hone rfl (fun e => ?_) (fun e => ?_) rfl rfl rfl, hQ _ htype⟩
      · simp [Points, FileData.IsInode, htype, fill, loseFile]
      · simp [OnEnd, htype, fill, loseFile]
    obtain ⟨hin, hpipe, hnone⟩ := hQ (k.file f).data
    have herase : m.blank = m.blank.erase f := (erase_eq_of_notMem hb).symm
    rcases htype : (k.file f).data.type
    · refine ⟨_, h.fileclose hp (m.loseFile f) hf hone rfl (fun e => ?_) (fun e => ?_) herase rfl rfl, hnone htype⟩
      · simp [Points, FileData.IsInode, htype, loseFile]
      · simp [OnEnd, htype, loseFile]
    · -- the end of the pipe becomes the caller's
      obtain ⟨⟨i, hi⟩, -⟩ := hok.piped (by omega) htype
      refine ⟨_, h.fileclose hp ((m.loseFile f).gainEnd (i, (k.file f).data.writable)) hf hone rfl (fun e => ?_)
        (fun e => ?_) herase rfl rfl, hpipe htype i hi⟩
      · simp [Points, FileData.IsInode, htype, gainEnd, loseFile]
      · by_cases he : e = (i, (k.file f).data.writable)
        · subst he
          simp [OnEnd, htype, hone, hi, gainEnd, loseFile]
          omega
        · have hne : ¬ OnEnd (k.file f) e := by
            rintro ⟨-, -, hi', hw⟩
            rw [hi] at hi'
            exact he (Prod.ext (some.inj hi').symm hw.symm)
          simp [hne, he, gainEnd, loseFile]
    all_goals
      -- the reference of the file to its inode becomes the caller's
      have hd : (k.file f).data.IsInode := by simp [FileData.IsInode, htype]
      obtain ⟨ip, hip⟩ := hok.open_ (by omega) hd
      refine ⟨_, h.fileclose hp ((m.loseFile f).gain ip) hf hone rfl (fun e => ?_) (fun e => ?_) herase rfl rfl,
        hin hd ip hip⟩
      · rcases eq_or_ne ip e with rfl | he
        · simp [Points, hone, hd, hip, loseFile]
          omega
        · simp [Points, hip, he, Ne.symm he, loseFile]
      · simp [OnEnd, htype, gain, loseFile]

/-- A page for a pipe, with both ends in the caller's hands. -/
theorem Acc.addPipe : Acc k.addPipe (update own p (some ((m.gainEnd (k.npipes, false)).gainEnd (k.npipes, true)))) := by
  have hnew := h.pages.unused k.npipes le_rfl
  refine h.step hp h.uniq (fun e => rfl) (fun _ => rfl) (fun e => ?_) h.file ⟨fun i hi => ?_, fun i hi => ?_⟩
    (fun _ => Or.inl rfl) (fun _ _ => rfl) (h.self p m hp) (h.busy p m hp) (fun f => h.blank p m f hp) rfl
  · show openEnd k.addPipe e + (endsAt k e + _) = openEnd k e + (endsAt k e + _)
    obtain ⟨i, w⟩ := e
    rcases eq_or_ne i k.npipes with rfl | hi
    · cases w <;>
        simp [openEnd, hnew, PipePage.none, PipePage.new, PipePage.isOpen, gainEnd] <;> omega
    · simp [openEnd, hi, gainEnd]
  · rcases eq_or_ne i k.npipes with rfl | he
    · simp [PipePage.new]
    have hlt : i < k.npipes := by
      have : i < k.npipes + 1 := hi
      omega
    simpa [he] using h.pages.used i hlt
  · have hlt : k.npipes + 1 ≤ i := hi
    simpa [show i ≠ k.npipes by omega] using h.pages.unused i (by omega)

/-- A new file becomes one end of a pipe. -/
theorem Acc.filepipe (hb : f ∈ m.blank) (he : (i, w) ∈ m.ends) :
    Acc (k.setFile f ((k.file f).piped i w)) (update own p (some ((m.loseEnd (i, w)).fill f))) := by
  obtain ⟨hmem, hone, htype⟩ := h.blank p m f hp hb
  refine h.file_update hp (Or.inl hmem) (fun e => ?_) (fun e => ?_) rfl (fun _ _ => rfl)
    ⟨fun _ hin => ?_, fun _ _ => ⟨⟨i, rfl⟩, rfl⟩, fun h0 => ?_⟩ (fun f' hf' => Or.inl (mem_erase.mp hf')) rfl
    rfl
  · simp [Points, FileData.IsInode, htype, File.piped, fill, loseEnd]
  · have hold : ¬ OnEnd (k.file f) e := fun h => by
      have hpipe := h.2.1
      rw [htype] at hpipe
      cases hpipe
    rcases eq_or_ne e (i, w) with rfl | hew
    · have := Multiset.one_le_count_iff_mem.mpr he
      have hnew : OnEnd ((k.file f).piped i w) (i, w) := ⟨by rw [File.piped, hone]; exact Nat.one_pos, rfl, rfl, rfl⟩
      rw [if_neg hold, if_pos hnew]
      simp [fill, loseEnd]
      omega
    · have hnew : ¬ OnEnd ((k.file f).piped i w) e := by
        rintro ⟨-, -, hi, hw⟩
        exact hew (Prod.ext (some.inj hi).symm hw.symm)
      simp [hold, hnew, fill, loseEnd, Multiset.count_erase_of_ne hew]
  · simp [FileData.IsInode, File.piped] at hin
  · have hpos : ((k.file f).piped i w).ref = 1 := hone
    omega

/-- Closing one end, and freeing the page with the second one. -/
theorem Acc.pipeclose (he : (i, w) ∈ m.ends) :
    Acc (k.setPipe i ((k.pipe i).pipeclose w)) (update own p (some (m.loseEnd (i, w)))) := by
  have hcount := Multiset.one_le_count_iff_mem.mpr he
  have hopen : (k.pipe i).isOpen w = true := by
    have hle : (holds k own p).ends.count (i, w) ≤ ∑ q, (holds k own q).ends.count (i, w) :=
      single_le_sum (f := fun q => (holds k own q).ends.count (i, w)) (fun _ _ => Nat.zero_le _) (mem_univ p)
    rw [holds_of_some hp] at hle
    have hends := h.ends (i, w)
    by_contra hn
    rw [openEnd, if_neg hn] at hends
    omega
  have hlt : i < k.npipes := by
    by_contra hge
    rw [h.pages.unused i (by omega)] at hopen
    cases w <;> cases hopen
  have hused := h.pages.used i hlt
  have hclose : ∀ w', ((k.pipe i).pipeclose w).isOpen w' = ((k.pipe i).isOpen w' && (w' != w)) := by
    rcases k.pipe i with ⟨r, o, n⟩
    cases w <;> rintro (_ | _) <;> cases r <;> cases o <;> rfl
  refine h.step hp h.uniq (fun e => rfl) (fun _ => rfl) (fun e => ?_) h.file ⟨fun j hj => ?_, fun j hj => ?_⟩
    (fun _ => Or.inl rfl) (fun _ _ => rfl) (h.self p m hp) (h.busy p m hp) (fun f => h.blank p m f hp) rfl
  · show _ + (endsAt k e + _) = openEnd k e + (endsAt k e + _)
    obtain ⟨j, w'⟩ := e
    rcases eq_or_ne j i with rfl | hj
    · rcases eq_or_ne w' w with rfl | hw
      · simp [openEnd, hclose, hopen, loseEnd]
        omega
      · simp [openEnd, hclose, hw, loseEnd]
    · simp [openEnd, hj, loseEnd]
  · rcases eq_or_ne j i with rfl | hji
    · rcases hpage : k.pipe j with ⟨r, o, n⟩
      cases w <;> cases r <;> cases o <;>
        simp_all [PipePage.pipeclose, PipePage.close, PipePage.kfree, PipePage.isOpen]
    · simpa [hji] using h.pages.used j hj
  · have hne : j ≠ i := by
      have : k.npipes ≤ j := hj
      omega
    simpa [hne] using h.pages.unused j hj

theorem Acc.pipeinit {f0 f1 : FPtr} (hb0 : f0 ∈ m.blank) (hb1 : f1 ∈ m.blank) (hne : f0 ≠ f1) :
    Acc ((k.addPipe.setFile f0 ((k.file f0).piped k.npipes false)).setFile f1 ((k.file f1).piped k.npipes true))
      (update own p (some ((m.fill f0).fill f1))) := by
  have h₁ := (h.addPipe hp).filepipe (i := k.npipes) (w := false) (update_self ..) hb0
    (by simp [gainEnd])
  have hb1' : f1 ∈ m.blank.erase f0 := mem_erase.mpr ⟨hne.symm, hb1⟩
  have h₂ := h₁.filepipe (i := k.npipes) (w := true) (update_self ..) hb1'
    (by simp [gainEnd, loseEnd, fill])
  have hm : (((((m.gainEnd (k.npipes, false)).gainEnd (k.npipes, true)).loseEnd (k.npipes, false)).fill f0).loseEnd
      (k.npipes, true)).fill f1 = (m.fill f0).fill f1 := by
    simp [gainEnd, loseEnd, fill, setEnds, setBlank, Multiset.cons_swap (k.npipes, true)]
  rw [hm, update_idem, update_idem] at h₂
  have hfile : (k.addPipe.setFile f0 ((k.addPipe.file f0).piped k.npipes false)).file f1 = k.file f1 := by
    simp [hne.symm]
  rw [hfile] at h₂
  exact h₂

theorem Acc.setChild (hnp : own np = none) (hlive : (k.proc np).state ≠ .live) {child : Option PPtr} {state : ProcState}
    (hchild : ∀ np', child = some np' → np' = np ∧ state = .used)
    (hother : ∀ q mq, q ≠ p → own q = some mq → mq.child ≠ some np) :
    Acc (k.setProc np ((k.proc np).setState state))
      (update own p (some (m.setChild child))) :=
  h.child_update hp hnp (fun _ => rfl) (fun _ => rfl) rfl rfl rfl (fun _ _ hf => hf) hchild hother
    fun _ => h.dead np hnp hlive

omit hp

theorem Acc.bumpPid : Acc k.bumpPid own :=
  { h with pages := ⟨h.pages.used, h.pages.unused⟩ }

section

variable (hp : own p = some m)

include hp

theorem Acc.spawn {ofile : Fd → Option FPtr}
    {cwd : IPtr} (hc : m.child = some np) (hb : m.blank = ∅) (hcwd : cwd ∈ m.inodes)
    (hfds : fds ofile ≤ m.files) :
    Acc (k.setProc np ((k.proc np).spawned ofile cwd))
      (update own p
        (some (((m.lose cwd).setFiles (m.files - fds ofile)).setChild none))) := by
  obtain ⟨hnp, hused⟩ := h.child p m np hp hc
  obtain ⟨hnocwd, hnofile⟩ := h.dead np hnp (by simp [hused])
  have hof : ((k.proc np).spawned ofile cwd).ofile = ofile := by
    funext fd
    simp [Proc.spawned, hnofile]
  refine h.child_update hp hnp (fun e => ?_) (fun f => ?_) rfl rfl rfl (fun f hf => ?_) nofun
    (fun q mq hq hmq hcq => hq (h.childUniq q p mq m np hmq hp hcq hc)) (fun hs => absurd rfl hs)
  · rw [hnocwd]
    have := Multiset.one_le_count_iff_mem.mpr hcwd
    rcases eq_or_ne e cwd with rfl | he
    · simp [Proc.spawned, one, lose]
      omega
    · simp [Proc.spawned, one, lose, he]
  · rw [hof, hnofile]
    have := Multiset.le_iff_count.mp hfds f
    simp [Own.setFiles, Own.setChild]
    omega
  · rw [hb] at hf
    exact absurd hf (notMem_empty f)

theorem Acc.ilock (hx : perform p hint k (.ilock ip) = .ok (k', ())) : Acc k' (update own p (some m)) := by
  have hsame : Acc k (update own p (some m)) := h.same hp (fun _ => ⟨rfl, rfl⟩) rfl rfl rfl rfl
  simp only [perform] at hx
  split at hx
  · cases hx
  split at hx
  · cases hx
  split at hx
  · cases hx
    exact hsame.setLock _ _
  split at hx
  · cases hx
  · cases hx
    exact (h.setLock ip (some p)).same_entry hp rfl rfl

variable {Q : o.Resp → Own → Prop}

/-- **Operations keep the account.**  Whatever process carries an operation out, if it owns
what `acct` asks for, then it owns afterwards what `acct` says, and the counts in the
tables are again those that the owners make up. -/
theorem perform_acc (hQ : acct o m Q) {r : o.Resp} (hx : perform p hint k o = .ok (k', r)) :
    ∃ m', Acc k' (update own p (some m')) ∧ Q r m' := by
  have hself := h.self p m hp
  have hsame : Acc k (update own p (some m)) := h.same hp (fun _ => ⟨rfl, rfl⟩) rfl rfl rfl rfl
  have hino : ∀ i x, Acc (k.setIno i x) (update own p (some m)) := fun i x =>
    h.same hp (fun _ => ⟨rfl, rfl⟩) rfl rfl rfl rfl
  cases o with
  | iget inum =>
    simp only [perform] at hx
    have hspec := Table.iget_spec k.tab inum
    rcases hg : k.tab.iget inum with msg | ⟨ip, tab⟩ <;> rw [hg] at hx hspec
    · cases hx
    · cases hx
      have hgot : Table.Got k.tab inum _ tab := hspec
      exact ⟨_, h.iget hp hgot, hQ _⟩
  | idup ip =>
    cases hx
    exact ⟨_, h.idup hp hQ.1, hQ.2⟩
  | idrop ip =>
    cases hx
    exact ⟨_, h.idrop hp hQ.1, hQ.2⟩
  | ilock ip => exact ⟨m, h.ilock hp hx, hQ⟩
  | ilockNew ip type =>
    have hx' : perform p hint k (.ilock ip) = .ok (k', ()) := hx
    exact ⟨m, h.ilock hp hx', hQ⟩
  | iunlock ip =>
    simp only [perform] at hx
    split at hx
    · cases hx
    · cases hx
      exact ⟨m, hsame.setLock _ _, hQ⟩
  | lastRef ip =>
    simp only [perform] at hx
    split at hx
    · split at hx
      · cases hx
      · cases hx
        exact ⟨m, hsame.setLock _ _, hQ _⟩
    · cases hx
      exact ⟨m, hsame, hQ _⟩
  | invalidate ip => cases hx; exact ⟨m, h.same_entry hp rfl rfl, hQ⟩
  | inum | fields | size | readi | isInit | choice => cases hx; exact ⟨m, hsame, hQ _⟩
  | iupdate | itrunc => cases hx; exact ⟨m, hino _ _, hQ⟩
  | writei | writeUser => cases hx; exact ⟨m, hino _ _, hQ _⟩
  | mark type =>
    simp only [perform] at hx
    split at hx
    · cases hx
      exact ⟨m, hino _ _, hQ _⟩
    · cases hx
  | filealloc =>
    simp only [perform] at hx
    split at hx
    · rename_i f hfind
      cases hx
      have hfree : (k.file f).ref = 0 := by simpa using List.find?_some hfind
      have hnot : f ∉ m.files := Multiset.count_eq_zero.mp (h.count_eq_zero hp hfree)
      exact ⟨_, h.filealloc hp hfree, hQ.2 f hnot fun hb => hnot (h.blank p m f hp hb).1⟩
    · cases hx
      exact ⟨m, hsame, hQ.1⟩
  | filedup f =>
    simp only [perform] at hx
    split at hx
    · cases hx
    cases hx
    refine ⟨_, h.file_ref hp hQ.1 hQ.2.1 ⟨_, rfl⟩ (Nat.succ_pos _) (by omega) ?_ ?_, hQ.2.2⟩
    · simp [File.dup]
      omega
    · exact fun f' hf' => by simp [hf']
  | fileunref f => exact h.fileunref hp hQ hx
  | fileopen f ip device major readable writable =>
    cases hx
    exact ⟨_, h.fileopen hp hQ.1 hQ.2.1 .., hQ.2.2⟩
  | filedata f => cases hx; exact ⟨m, hsame, hQ.2.2 _⟩
  | setOff f off =>
    cases hx
    have hpos := h.fref_pos hp hQ.1
    have hkeep : ∀ f', f' ≠ f → m.files.count f' = m.files.count f' := fun _ _ => rfl
    exact ⟨_, h.file_ref hp hQ.1 hQ.2.1 ⟨off, rfl⟩ hpos hpos rfl hkeep, hQ.2.2⟩
  | pipeinit f0 f1 =>
    obtain ⟨hb0, hb1, hne, hfail, hdone⟩ := hQ
    simp only [perform] at hx
    split at hx
    · cases hx
      exact ⟨_, h.pipeinit hp hb0 hb1 hne, hdone⟩
    · cases hx
      exact ⟨m, hsame, hfail⟩
  | pipeclose i w => cases hx; exact ⟨_, h.pipeclose hp hQ.1, hQ.2⟩
  | cwd =>
    simp only [perform] at hx
    split at hx
    · rename_i ip hcwd
      cases hx
      exact ⟨m, hsame, hQ _ (by rw [hself]; exact hcwd)⟩
    · cases hx
  | setCwd | clearFd =>
    cases hx
    rw [← hself]
    exact ⟨_, h.self_update hp (by rw [hself]; exact h.busy p m hp), hQ⟩
  | ofile fd =>
    cases hx
    rw [← hself]
    exact ⟨m, hsame, hQ⟩
  | fdalloc f =>
    simp only [perform] at hx
    split at hx
    · rename_i fd hfind
      cases hx
      have hfd : (k.proc p).ofile fd = none := by simpa using List.find?_some hfind
      rw [← hself] at hfd ⊢
      exact ⟨_, h.self_update hp (by rw [hself]; exact h.busy p m hp), hQ.2 fd hfd⟩
    · cases hx
      exact ⟨m, hsame, hQ.1⟩
  | zombie =>
    cases hx
    rw [← hself]
    exact ⟨_, h.self_update hp (Or.inr rfl), hQ⟩
  | allocproc =>
    simp only [perform] at hx
    split at hx
    · rename_i np hfind
      cases hx
      have hunused : (k.proc np).state = .unused := by simpa using List.find?_some hfind
      have hnp : own np = none := by
        rcases ho : own np with - | mo
        · rfl
        · rcases h.busy np mo ho with hs | hs <;> rw [hunused] at hs <;> cases hs
      refine ⟨_, (h.setChild hp hnp (by simp [hunused]) (fun np' hn => ?_)
        fun q mq _ hmq hcq => ?_).bumpPid, hQ.2.2 np k.nextpid⟩
      · exact ⟨(some.inj hn).symm, rfl⟩
      · have := (h.child q mq np hmq hcq).2
        rw [hunused] at this
        cases this
    · cases hx
      exact ⟨m, hsame, hQ.2.1⟩
  | freeproc np =>
    cases hx
    obtain ⟨hnp, hused⟩ := h.child p m np hp hQ.1
    exact ⟨_, h.setChild hp hnp (by simp [hused]) (fun _ hn => by cases hn)
      fun q mq hq hmq hcq => hq (h.childUniq q p mq m np hmq hp hcq hQ.1), hQ.2⟩
  | spawn np ofile cwd =>
    cases hx
    exact ⟨_, h.spawn hp hQ.1 hQ.2.1 hQ.2.2.1 hQ.2.2.2.1, hQ.2.2.2.2⟩
  | panic msg => cases hx

/-- A file that a process refers to has a reference. -/
theorem perform_counted
    (hQ : acct o m Q) {msg : String} (hx : perform p hint k o = .panic msg) : ¬ Miscount msg := by
  cases o with
  | filedup f =>
    have := h.fref_pos hp hQ.1
    simp only [perform] at hx
    split at hx
    · omega
    · cases hx
  | fileunref f =>
    have := h.fref_pos hp hQ.1
    simp only [perform] at hx
    split at hx
    · omega
    · split at hx <;> cases hx
  | panic msg' =>
    cases hx
    exact hQ
  | iget inum =>
    simp only [perform] at hx
    have hspec := Table.iget_spec k.tab inum
    rcases hg : k.tab.iget inum with msg' | r <;> rw [hg] at hx hspec
    · cases hx
      have hmsg : msg = "iget: no inodes" := hspec
      rw [hmsg]
      decide
    · cases hx
  | ilock ip =>
    simp only [perform] at hx
    split at hx
    · cases hx
      decide
    split at hx
    · cases hx
    split at hx
    · cases hx
    split at hx
    · cases hx
      decide
    · cases hx
  | _ =>
    -- the others panic with a message of their own, or not at all
    simp only [perform] at hx
    repeat' split at hx
    all_goals first
      | cases hx; decide
      | cases hx

end

end

end Step

/-! ### Calls that begin and end -/

section Calls

variable {k : Kernel} {own : PPtr → Option Own} {p : PPtr} {m : Own} {o : Option Own}

/-- What a process owns does not change when it enters or leaves a call. -/
theorem holds_entry (h : o.getD (idle (k.proc p)) = holds k own p) : holds k (update own p o) = holds k own := by
  funext q
  rcases eq_or_ne q p with rfl | hq
  · simpa [holds] using h
  · simp [holds, hq]

theorem Acc.enter (h : Acc k own) (hp : own p = none) (hlive : (k.proc p).state = .live) :
    Acc k (update own p (some (idle (k.proc p)))) := by
  have hholds := holds_entry (o := some (idle (k.proc p))) (holds_of_none hp).symm
  have hof : ∀ {q mq}, update own p (some (idle (k.proc p))) q = some mq →
      q = p ∧ mq = idle (k.proc p) ∨ q ≠ p ∧ own q = some mq := by
    intro q mq hq
    rcases eq_or_ne q p with rfl | he
    · exact Or.inl ⟨rfl, by simpa using hq.symm⟩
    · exact Or.inr ⟨he, by rwa [update_of_ne he] at hq⟩
  refine
    { uniq := h.uniq
      ref := fun e => hholds ▸ h.ref e
      fref := fun f => hholds ▸ h.fref f
      ends := fun e => hholds ▸ h.ends e
      file := h.file
      pages := h.pages
      self := fun q mq hq => ?_
      busy := fun q mq hq => ?_
      blank := fun q mq f hq hf => ?_
      child := fun q mq np hq hnp => ?_
      childUniq := fun q q' mq mq' np hq hq' hnp hnp' => ?_
      dead := fun q hq hs => ?_ }
  · rcases hof hq with ⟨rfl, rfl⟩ | ⟨-, hq⟩
    · rfl
    · exact h.self q mq hq
  · rcases hof hq with ⟨rfl, rfl⟩ | ⟨-, hq⟩
    · exact Or.inl hlive
    · exact h.busy q mq hq
  · rcases hof hq with ⟨rfl, rfl⟩ | ⟨-, hq⟩
    · exact absurd hf (notMem_empty f)
    · exact h.blank q mq f hq hf
  · rcases hof hq with ⟨rfl, rfl⟩ | ⟨-, hq⟩
    · cases hnp
    obtain ⟨hnone, hused⟩ := h.child q mq np hq hnp
    have hne : np ≠ p := fun he => by rw [he, hlive] at hused; cases hused
    rw [update_of_ne hne]
    exact ⟨hnone, hused⟩
  · rcases hof hq with ⟨rfl, rfl⟩ | ⟨-, hq⟩
    · cases hnp
    · rcases hof hq' with ⟨rfl, rfl⟩ | ⟨-, hq'⟩
      · cases hnp'
      · exact h.childUniq q q' mq mq' np hq hq' hnp hnp'
  · have hne : q ≠ p := fun he => by rw [he, update_self] at hq; cases hq
    rw [update_of_ne hne] at hq
    exact h.dead q hq hs

theorem Acc.leave (h : Acc k own) (hp : own p = some m) (hm : m.Done) : Acc k (update own p none) := by
  have hself := h.self p m hp
  have hholds : holds k (update own p none) = holds k own := holds_entry (by
    rw [holds_of_some hp, hm.idle, hself]
    rfl)
  have hof : ∀ {q mq}, update own p none q = some mq → q ≠ p ∧ own q = some mq := by
    intro q mq hq
    have hne : q ≠ p := fun he => by rw [he, update_self] at hq; cases hq
    exact ⟨hne, by rwa [update_of_ne hne] at hq⟩
  refine
    { uniq := h.uniq
      ref := fun e => hholds ▸ h.ref e
      fref := fun f => hholds ▸ h.fref f
      ends := fun e => hholds ▸ h.ends e
      file := h.file
      pages := h.pages
      self := fun q mq hq => h.self q mq (hof hq).2
      busy := fun q mq hq => h.busy q mq (hof hq).2
      blank := fun q mq f hq => h.blank q mq f (hof hq).2
      child := fun q mq np hq hnp => ?_
      childUniq := fun q q' mq mq' np hq hq' => h.childUniq q q' mq mq' np (hof hq).2 (hof hq').2
      dead := fun q hq hs => ?_ }
  · obtain ⟨hnone, hused⟩ := h.child q mq np (hof hq).2 hnp
    have hne : np ≠ p := fun he => by rw [he, hp] at hnone; cases hnone
    rw [update_of_ne hne]
    exact ⟨hnone, hused⟩
  · rcases eq_or_ne q p with rfl | he
    · rw [← hself] at hs ⊢
      exact hm.dead hs
    · rw [update_of_ne he] at hq
      exact h.dead q hq hs

/-- Somebody waits for a process that has exited. -/
theorem Acc.reap (h : Acc k own) (hp : own p = none) (hz : (k.proc p).state = .zombie) :
    Acc (k.setProc p ((k.proc p).setState .unused)) own := by
  have hproc : ∀ {q}, q ≠ p → (k.setProc p ((k.proc p).setState .unused)).proc q = k.proc q :=
    fun hq => by simp [hq]
  have hne : ∀ {q mq}, own q = some mq → q ≠ p := fun hq he => by
    rw [he, hp] at hq
    cases hq
  have hholds : ∀ q, (holds (k.setProc p ((k.proc p).setState .unused)) own q).inodes
        = (holds k own q).inodes ∧
      (holds (k.setProc p ((k.proc p).setState .unused)) own q).files = (holds k own q).files ∧
      (holds (k.setProc p ((k.proc p).setState .unused)) own q).ends = (holds k own q).ends := by
    intro q
    rcases eq_or_ne q p with rfl | hq
    · simp [holds, hp, idle, Proc.setState]
    · simp [holds, hq]
  refine
    { uniq := h.uniq
      ref := fun e => ?_
      fref := fun f => ?_
      ends := fun e => ?_
      file := h.file
      pages := ⟨h.pages.used, h.pages.unused⟩
      self := fun q mq hq => ?_
      busy := fun q mq hq => ?_
      blank := h.blank
      child := fun q mq np hq hnp => ?_
      childUniq := h.childUniq
      dead := fun q hq hs => ?_ }
  · simp only [hholds]
    exact h.ref e
  · simp only [hholds]
    exact h.fref f
  · simp only [hholds]
    exact h.ends e
  · rw [hproc (hne hq)]
    exact h.self q mq hq
  · rw [hproc (hne hq)]
    exact h.busy q mq hq
  · obtain ⟨hnone, hused⟩ := h.child q mq np hq hnp
    have hnp' : np ≠ p := fun he => by rw [he, hz] at hused; cases hused
    rw [hproc hnp']
    exact ⟨hnone, hused⟩
  · rcases eq_or_ne q p with rfl | he
    · have hdead := h.dead q hp (by simp [hz])
      simpa [Proc.setState] using hdead
    · rw [hproc he] at hs ⊢
      exact h.dead q hq hs

/-- The counts are exact, and every call in progress owns what it goes on to use. -/
structure PoolInv (s : Pool) (own : PPtr → Option Own) : Prop where
  acc : Acc s.kernel own
  idle : ∀ p, s.prog p = none → own p = none
  busy : ∀ p c, s.prog p = some c → ∃ m, own p = some m ∧ c.wp acct m fun _ m => m.Done

variable {s : Pool}

/-- Replacing the program of one process and what it owns. -/
theorem PoolInv.update (h : PoolInv s own) {kernel : Kernel} {c : Option (FsProg Int)}
    (hacc : Acc kernel (update own p o)) (hidle : c = none → o = none)
    (hbusy : ∀ c', c = some c' → ∃ m, o = some m ∧ c'.wp acct m fun _ m => m.Done) :
    PoolInv { kernel := kernel, prog := update s.prog p c } (update own p o) := by
  refine ⟨hacc, fun q hq => ?_, fun q c' hq => ?_⟩
  · rcases eq_or_ne q p with rfl | he
    · simp only [update_self] at hq ⊢
      exact hidle hq
    · simp only [update_of_ne he] at hq ⊢
      exact h.idle q hq
  · rcases eq_or_ne q p with rfl | he
    · simp only [update_self] at hq ⊢
      exact hbusy c' hq
    · simp only [update_of_ne he] at hq ⊢
      exact h.busy q c' hq

variable {a : Act}

theorem poolInv_step {s' : Pool} (h : PoolInv s own) (hs : pstep s a = .ok s') : ∃ own', PoolInv s' own' := by
  cases a with
  | start p c =>
    simp only [pstep] at hs
    split at hs
    · rename_i hcond
      obtain ⟨hlive, hnone⟩ := hcond
      have hp : own p = none := h.idle p (isNone_iff_eq_none.mp hnone)
      cases hs
      refine ⟨_, h.update (h.acc.enter hp hlive) (by rintro ⟨⟩) fun c' hc' => ?_⟩
      cases hc'
      exact ⟨_, rfl, prog_done c hlive⟩
    · cases hs
  | step p hint =>
    simp only [pstep] at hs
    rcases hprog : s.prog p with - | (v | ⟨o, k⟩) <;> rw [hprog] at hs
    · cases hs
    · -- the call returns
      obtain ⟨m, hm, hwp⟩ := h.busy p _ hprog
      cases hs
      exact ⟨_, h.update (h.acc.leave hm hwp) (fun _ => rfl) (by rintro _ ⟨⟩)⟩
    · obtain ⟨m, hm, hwp⟩ := h.busy p _ hprog
      simp only at hs
      rcases hx : perform p hint s.kernel o with ⟨kernel, r⟩ | - | msg <;> rw [hx] at hs
      · cases hs
        obtain ⟨m', hacc, hwp'⟩ := perform_acc h.acc hm hwp hx
        refine ⟨_, h.update hacc (by rintro ⟨⟩) fun c' hc' => ?_⟩
        cases hc'
        exact ⟨m', rfl, hwp'⟩
      · cases hs
      · cases hs
  | reap p =>
    simp only [pstep] at hs
    split at hs
    · rename_i hcond
      obtain ⟨hz, hnone⟩ := hcond
      have hp : own p = none := h.idle p (isNone_iff_eq_none.mp hnone)
      cases hs
      exact ⟨own, h.acc.reap hp hz, h.idle, h.busy⟩
    · cases hs

theorem PoolInv.counted {msg : String} (h : PoolInv s own) (hs : pstep s a = .panic msg) : ¬ Miscount msg := by
  cases a with
  | start | reap =>
    simp only [pstep] at hs
    split at hs <;> cases hs
  | step p hint =>
    simp only [pstep] at hs
    rcases hprog : s.prog p with - | (v | ⟨o, k⟩) <;> rw [hprog] at hs
    · cases hs
    · cases hs
    obtain ⟨m, hm, hwp⟩ := h.busy p _ hprog
    simp only at hs
    rcases hx : perform p hint s.kernel o with ⟨kernel, r⟩ | - | msg' <;> rw [hx] at hs
    · cases hs
    · cases hs
    · cases hs
      exact perform_counted h.acc hm hwp hx

end Calls

/-! ### Whole runs -/

/-- The state after booting, with no call in progress. -/
def bootPool (ninodes : Nat) (ino : Nat → Ino) : Pool where
  kernel := boot ninodes ino
  prog := fun _ => none

theorem boot_idle (ninodes : Nat) (ino : Nat → Ino) (q : PPtr) (e : IPtr) :
    (idle ((boot ninodes ino).proc q)).inodes.count e = if q.val = 0 ∧ e.val = 0 then 1 else 0 := by
  by_cases hq : q.val = 0
  · by_cases he : e.val = 0
    · have : e = ⟨0, by decide⟩ := Fin.ext he
      subst this
      simp [idle, boot, hq, one]
    · have : e ≠ ⟨0, by decide⟩ := fun h => he (by rw [h])
      simp [idle, boot, hq, he, one, this]
  · simp [idle, boot, hq, one]

theorem boot_acc (ninodes : Nat) (ino : Nat → Ino) : Acc (boot ninodes ino) fun _ => none := by
  have hholds : ∀ q, holds (boot ninodes ino) (fun _ => none) q
      = idle ((boot ninodes ino).proc q) := fun _ => rfl
  have hpts : ∀ f e, ¬ Points ((boot ninodes ino).file f) e := fun f e h => absurd h.1 (lt_irrefl 0)
  have hnofile : ∀ q, ((boot ninodes ino).proc q).ofile = fun _ => none := by
    intro q
    simp only [boot]
    split <;> rfl
  refine
    { uniq := fun e e' he he' _ => ?_
      ref := fun e => ?_
      fref := fun f => ?_
      ends := fun e => ?_
      file := fun f => ⟨fun h => absurd h (lt_irrefl 0), fun h => absurd h (lt_irrefl 0), fun _ => rfl⟩
      pages := ⟨fun i hi => absurd hi (Nat.not_lt_zero i), fun _ _ => rfl⟩
      self := nofun
      busy := nofun
      blank := nofun
      child := nofun
      childUniq := nofun
      dead := fun q _ hs => ?_ }
  · -- only the first entry is in use
    have hzero : ∀ e : IPtr, 0 < (bootTab e).ref → e.val = 0 := by
      intro e he
      by_contra hn
      rw [bootTab, if_neg hn] at he
      exact absurd he (lt_irrefl 0)
    exact Fin.ext ((hzero e he).trans (hzero e' he').symm)
  · simp only [hholds, boot_idle, filesAt]
    rw [filter_false_of_mem fun f _ => hpts f e]
    by_cases he : e.val = 0
    · simp only [he, and_true]
      rw [sum_eq_single (⟨0, by decide⟩ : PPtr)]
      · simp [boot, bootTab, he]
      · intro q _ hq
        rw [if_neg fun h => hq (Fin.ext h)]
      · exact fun h => absurd (mem_univ _) h
    · simp [boot, bootTab, he]
  · simp only [hholds, idle, hnofile, fds_none]
    simp [boot]
  · have hend : ∀ f, ¬ OnEnd ((boot ninodes ino).file f) e := fun f h => absurd h.1 (lt_irrefl 0)
    simp only [hholds, endsAt]
    rw [filter_false_of_mem fun f _ => hend f]
    obtain ⟨i, w⟩ := e
    cases w <;> simp [idle, openEnd, boot, PipePage.none, PipePage.isOpen]
  · refine ⟨?_, hnofile q⟩
    simp only [boot] at hs ⊢
    split at hs
    · exact absurd rfl hs
    · rename_i h
      rw [if_neg h]

theorem poolInv_boot (ninodes : Nat) (ino : Nat → Ino) : ∃ own, PoolInv (bootPool ninodes ino) own :=
  ⟨_, boot_acc ninodes ino, fun _ _ => rfl, nofun⟩

theorem poolInv_run {ninodes : Nat} {ino : Nat → Ino} {as : List Act} {s : Pool}
    (h : Machine.Run pstep (bootPool ninodes ino) as s) : ∃ own, PoolInv s own :=
  h.invariant (I := fun s => ∃ own, PoolInv s own) (fun _ _ _ ⟨_, hi⟩ hs => poolInv_step hi hs)
    (poolInv_boot ninodes ino)

/-- Outside calls, the references that processes own are their current directories. -/
theorem sum_idle_count (k : Kernel) (e : IPtr) : ∑ q, (idle (k.proc q)).inodes.count e = cwdsAt k e := by
  rw [cwdsAt, card_filter]
  refine sum_congr rfl fun q _ => ?_
  rcases hc : (k.proc q).cwd with - | ip
  · simp [idle, hc, one]
  · simp [idle, hc, one, Multiset.count_singleton, eq_comm]

/-- **Inode table references are exact.**  Whatever calls processes make after booting and
however their operations interleave: an inode has at most one entry in use; `iget` gives out
an entry in use only for the inode that it is for; and whenever no call is in progress, the
count of an entry is the number of files open on it plus the number of processes whose
current directory it is. -/
theorem inode_refs_exact {ninodes : Nat} {ino : Nat → Ino} {as : List Act} {s : Pool}
    (h : Machine.Run pstep (bootPool ninodes ino) as s) :
    s.kernel.tab.Uniq ∧
      (∀ inum e tab, s.kernel.tab.iget inum = .ok (e, tab) → 0 < (s.kernel.tab e).ref →
        (s.kernel.tab e).inum = inum ∧ tab = update s.kernel.tab e (s.kernel.tab e).dup) ∧
      ((∀ p, s.prog p = none) →
        ∀ e, (s.kernel.tab e).ref = filesAt s.kernel e + cwdsAt s.kernel e) := by
  obtain ⟨own, hi⟩ := poolInv_run h
  refine ⟨hi.acc.uniq, fun inum e tab hg hpos => ?_, fun hidle e => ?_⟩
  · have hspec := Table.iget_spec s.kernel.tab inum
    rw [hg] at hspec
    have hgot : Table.Got s.kernel.tab inum e tab := hspec
    cases hgot with
    | hit _ hinum => exact ⟨hinum, rfl⟩
    | recycled hzero _ => omega
  · have hown : ∀ q, holds s.kernel own q = idle (s.kernel.proc q) := fun q =>
      holds_of_none (hi.idle q (hidle q))
    have href := hi.acc.ref e
    simp only [hown, sum_idle_count] at href
    exact href

/-- The file is open on the pipe. -/
def OnPipe (x : File) (i : Nat) : Prop := 0 < x.ref ∧ x.data.type = .pipe ∧ x.data.pipe = some i

/-- The number of descriptors for a file. -/
def fdsAt (k : Kernel) (f : FPtr) : Nat := ∑ p, #{fd | (k.proc p).ofile fd = some f}

/-- The page of a pipe is allocated, and its ends are open, as long as there are files for them. -/
structure PipeExact (k : Kernel) (i : Nat) : Prop where
  alloc : (k.pipe i).kfrees = 0 ↔ ∃ f, OnPipe (k.file f) i
  readopen : (k.pipe i).readopen = true ↔ ∃ f, OnPipe (k.file f) i ∧ (k.file f).data.readable = true
  writeopen : (k.pipe i).writeopen = true ↔ ∃ f, OnPipe (k.file f) i ∧ (k.file f).data.writable = true

/-- Outside calls, the references that processes own are their descriptors. -/
theorem sum_idle_files (k : Kernel) (f : FPtr) : ∑ q, (idle (k.proc q)).files.count f = fdsAt k f := by
  refine sum_congr rfl fun q _ => ?_
  have hcount : (fds (k.proc q).ofile).count f = ∑ fd, (one ((k.proc q).ofile fd)).count f :=
    Multiset.count_sum' ..
  rw [card_filter]
  refine hcount.trans (sum_congr rfl fun fd _ => ?_)
  rcases hf : (k.proc q).ofile fd with - | f'
  · simp [one]
  · simp [one, Multiset.count_singleton, eq_comm]

variable {k : Kernel} {own : PPtr → Option Own}

/-- An end is open if and only if a file is that end. -/
theorem Acc.isOpen_iff (h : Acc k own) (hidle : ∀ q, own q = none)
    (i : Nat) (w : Bool) : (k.pipe i).isOpen w = true ↔ ∃ f, OnEnd (k.file f) (i, w) := by
  have hends := h.ends (i, w)
  have hnone : ∑ q, (holds k own q).ends.count (i, w) = 0 := by
    refine sum_eq_zero fun q _ => ?_
    rw [holds_of_none (hidle q)]
    rfl
  rw [hnone, add_zero] at hends
  constructor
  · intro hopen
    rw [openEnd, if_pos hopen] at hends
    obtain ⟨f, hf⟩ := card_pos.mp (hends ▸ Nat.one_pos)
    exact ⟨f, (mem_filter.mp hf).2⟩
  · rintro ⟨f, hf⟩
    by_contra hn
    rw [openEnd, if_neg hn] at hends
    exact absurd (card_eq_zero.mp hends.symm) (ne_empty_of_mem (mem_filter.mpr ⟨mem_univ f, hf⟩))

theorem Acc.pipeExact (h : Acc k own) (hidle : ∀ q, own q = none) {i : Nat} (hi : i < k.npipes) : PipeExact k i := by
  have hend : ∀ f w, OnEnd (k.file f) (i, w) ↔ OnPipe (k.file f) i ∧ (k.file f).data.writable = w := by
    intro f w
    exact ⟨fun ⟨h1, h2, h3, h4⟩ => ⟨⟨h1, h2, h3⟩, h4⟩, fun ⟨⟨h1, h2, h3⟩, h4⟩ => ⟨h1, h2, h3, h4⟩⟩
  have hread : ∀ f, OnPipe (k.file f) i →
      ((k.file f).data.readable = true ↔ (k.file f).data.writable = false) := by
    intro f hf
    rw [((h.file f).piped hf.1 hf.2.1).2]
    simp
  have hused := h.pages.used i hi
  have hr : (k.pipe i).readopen = true ↔ ∃ f, OnEnd (k.file f) (i, false) := h.isOpen_iff hidle i false
  have hw : (k.pipe i).writeopen = true ↔ ∃ f, OnEnd (k.file f) (i, true) := h.isOpen_iff hidle i true
  simp only [hend] at hr hw
  refine ⟨?_, hr.trans (exists_congr fun f => and_congr_right fun hf => (hread f hf).symm), hw⟩
  have hfree : (k.pipe i).kfrees = 0 ↔ (k.pipe i).readopen = true ∨ (k.pipe i).writeopen = true := by
    rw [hused, ite_eq_left_iff, not_imp_comm]
    exact ⟨fun h => h Nat.one_ne_zero, fun h _ => h⟩
  rw [hfree, hr, hw, ← exists_or]
  refine exists_congr fun f => ?_
  rw [← and_or_left]
  exact and_iff_left_of_imp fun _ => by cases (k.file f).data.writable <;> simp

/-- **Open-file counts and pipe lifetimes are exact.**  Whatever calls processes make after
booting, however their operations interleave and wherever they fail: a page of a pipe is
freed at most once; whenever no call is in progress, the count of a file is the number of
descriptors for it, and a page of a pipe is not freed, its read end is open and its write end
is open exactly when there is a file for the pipe, for its read end and for its write end; and
nobody panics because a file has no reference. -/
theorem file_counts_exact (ninodes : Nat) (ino : Nat → Ino) (as : List Act) :
    (∀ s, Machine.Run pstep (bootPool ninodes ino) as s →
      (∀ i, (s.kernel.pipe i).kfrees ≤ 1) ∧
      ((∀ p, s.prog p = none) →
        (∀ f, (s.kernel.file f).ref = fdsAt s.kernel f) ∧
        ∀ i < s.kernel.npipes, PipeExact s.kernel i)) ∧
      outcome pstep (bootPool ninodes ino) as ≠ .panic "filedup" ∧
      outcome pstep (bootPool ninodes ino) as ≠ .panic "fileclose" := by
  have hno : ∀ {msg}, Miscount msg → outcome pstep (bootPool ninodes ino) as ≠ .panic msg := by
    intro msg hmsg
    refine outcome_ne_panic (I := fun s => ∃ own, PoolInv s own)
      (fun _ _ _ ⟨_, hi⟩ hs => poolInv_step hi hs) (fun s a ⟨own, hi⟩ hs => ?_) (poolInv_boot ninodes ino) as
    exact hi.counted hs hmsg
  refine ⟨fun s hrun => ?_, hno (Or.inl rfl), hno (Or.inr rfl)⟩
  obtain ⟨own, hi⟩ := poolInv_run hrun
  refine ⟨fun i => ?_, fun hidle => ?_⟩
  · rcases lt_or_ge i s.kernel.npipes with hlt | hge
    · rw [hi.acc.pages.used i hlt]
      split <;> omega
    · rw [hi.acc.pages.unused i hge]
      exact Nat.zero_le 1
  · have hown : ∀ q, own q = none := fun q => hi.idle q (hidle q)
    refine ⟨fun f => ?_, fun i hlt => hi.acc.pipeExact hown hlt⟩
    have href := hi.acc.fref f
    simp only [holds_of_none (hown _), sum_idle_files] at href
    exact href

/-- The first process opens the root directory, and is back in user space. -/
def openRoot : List Act :=
  .start ⟨0, NPROC_pos⟩ (.file (.sysOpen (some [slash]) O_RDONLY)) ::
    List.replicate 10 (.step ⟨0, NPROC_pos⟩ false)

theorem inode_refs_exact_openRoot :
    ∃ s, Machine.Run pstep (bootPool 10 rootIno) openRoot s ∧ (∀ p, s.prog p = none) ∧
      (s.kernel.tab ⟨0, by decide⟩).ref = 2 ∧
      2 = filesAt s.kernel ⟨0, by decide⟩ + cwdsAt s.kernel ⟨0, by decide⟩ := by
  have hok : passes pstep (bootPool 10 rootIno) openRoot (fun s =>
      (List.finRange NPROC).all (fun p => (s.prog p).isNone) &&
        (s.kernel.tab ⟨0, by decide⟩).ref == 2) = true := by decide
  obtain ⟨s, hrun, hs⟩ := run_of_passes hok
  rw [Bool.and_eq_true, List.all_eq_true] at hs
  have hidle : ∀ p, s.prog p = none := fun p =>
    isNone_iff_eq_none.mp (hs.1 p (List.mem_finRange p))
  have href : (s.kernel.tab ⟨0, by decide⟩).ref = 2 := by simpa using hs.2
  exact ⟨s, hrun, hidle, href, href ▸ (inode_refs_exact hrun).2.2 hidle _⟩

/-- The first process makes a pipe and closes the read end. -/
def halfPipe : List Act :=
  .start ⟨0, NPROC_pos⟩ .sysPipe :: List.replicate 7 (.step ⟨0, NPROC_pos⟩ true) ++
    .start ⟨0, NPROC_pos⟩ (.file (.sysClose 0)) :: List.replicate 5 (.step ⟨0, NPROC_pos⟩ true)

theorem file_counts_exact_halfPipe :
    ∃ s, Machine.Run pstep (bootPool 10 rootIno) halfPipe s ∧ (∀ p, s.prog p = none) ∧ s.kernel.npipes = 1 ∧
      (s.kernel.pipe 0).readopen = false ∧ PipeExact s.kernel 0 := by
  have hok : passes pstep (bootPool 10 rootIno) halfPipe (fun s =>
      (List.finRange NPROC).all (fun p => (s.prog p).isNone) &&
        (s.kernel.npipes == 1 && (s.kernel.pipe 0).readopen == false)) = true := by decide
  obtain ⟨s, hrun, hs⟩ := run_of_passes hok
  simp only [Bool.and_eq_true, List.all_eq_true, beq_iff_eq] at hs
  obtain ⟨hprog, hone, hread⟩ := hs
  have hidle : ∀ p, s.prog p = none := fun p =>
    isNone_iff_eq_none.mp (hprog p (List.mem_finRange p))
  have hexact := ((file_counts_exact 10 rootIno halfPipe).1 s hrun).2 hidle
  exact ⟨s, hrun, hidle, hone, hread, hexact.2 0 (hone ▸ Nat.one_pos)⟩

end Xv6.Sys
