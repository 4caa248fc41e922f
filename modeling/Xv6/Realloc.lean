/-
Xv6/Realloc.lean

An inode is freed and allocated again at the same time.

`iput` finds that it drops the last reference to an inode without links.  It
then gives up `itable.lock`, frees the inode on disk, and takes the reference
back only after that.  In between `ialloc` may hand the inode out again and
`iget` finds the entry that is still in use.

The machine has one step for each critical section: under `itable.lock`, under
the sleep lock of an inode, or under the lock of the buffer that holds an inode
on disk.  A process is at a position `Pc` of `iput`, of `ialloc` with the
`ilock` that follows it, or of `ilock`.  Two parts of the state are there for
the statements only: `named` says which inodes a directory entry names, and
`gen` how often an inode was handed out.  A free path starts only on an inode
that is not named, and an inode comes out of a directory only while it is.

`RInv` is the invariant.  Its main part is what a process knows about the inode
that it has got from `ialloc` and not yet locked (`Window`): it is on disk as
`ialloc` left it, and whoever else has a reference is past the point where it
writes.
-/
import Xv6.Itable

namespace Xv6.Realloc

open Fs Function Multiset Finset

/-- Positions in the code; `g` is `gen` of the inode when the process came to it. -/
inductive Pc where
  | idle
  /-- `iput`: the test was true and the inode is locked. -/
  | trunc (e : Fin NINODE) (g : Nat)
  /-- `iput`: before `ip->type = 0` and `iupdate`. -/
  | clear (e : Fin NINODE) (g : Nat)
  /-- `iput`: before `ip->valid = 0` and `releasesleep`. -/
  | inval (e : Fin NINODE)
  /-- `iput`: before `ip->ref--`. -/
  | drop (e : Fin NINODE)
  /-- `ialloc`: before looking at inode `j`. -/
  | scan (type : Int16) (j : Nat)
  /-- `ialloc`: before `iget`. -/
  | marked (type : Int16) (j g : Nat)
  /-- After `ialloc`: before `acquiresleep` in `ilock`. -/
  | fresh (type : Int16) (e : Fin NINODE) (g : Nat)
  /-- After `ialloc`: in `ilock`, with the lock. -/
  | loading (type : Int16) (e : Fin NINODE) (g : Nat)
  /-- After `ialloc` and `ilock`. -/
  | allocated (type : Int16) (e : Fin NINODE) (g : Nat)
  /-- `ilock`: before `acquiresleep`. -/
  | wait (e : Fin NINODE)
  /-- `ilock`: with the lock. -/
  | load (e : Fin NINODE)
  deriving DecidableEq

/-- The inodes on disk and in memory, and the processes. -/
structure RSys (P : Type) where
  ninodes : Nat
  disk : Nat → DInode
  tab : Table DInode
  lock : Fin NINODE → Option P
  pc : P → Pc
  /-- The references that a process has. -/
  held : P → Multiset (Fin NINODE)
  named : Nat → Bool
  gen : Nat → Nat

/-- What a process does next. -/
inductive RAct (P : Type) where
  | iget (p : P) (j : Nat)
  | idup (p : P) (e : Fin NINODE)
  | ilock (p : P) (e : Fin NINODE)
  | iunlock (p : P) (e : Fin NINODE)
  | iput (p : P) (e : Fin NINODE)
  | ialloc (p : P) (type : Int16)
  /-- Any change of a locked inode but of its type, and `iupdate`. -/
  | store (p : P) (e : Fin NINODE) (di : DInode)
  /-- A directory entry for an inode is made. -/
  | link (p : P) (e : Fin NINODE)
  /-- The last directory entry for an inode goes. -/
  | unlink (p : P) (j : Nat)
  /-- The next critical section of a call. -/
  | step (p : P)

section Machine

variable {P : Type} [DecidableEq P]

namespace RSys

variable (s : RSys P) (p : P)

@[simps] def setDisk (i : Nat) (di : DInode) : RSys P := { s with disk := update s.disk i di }

@[simps] def setTab (tab : Table DInode) : RSys P := { s with tab := tab }

@[simps] def setLock (e : Fin NINODE) (o : Option P) : RSys P :=
  { s with lock := update s.lock e o }

@[simps] def setPc (pc : Pc) : RSys P := { s with pc := update s.pc p pc }

@[simps] def setHeld (l : Multiset (Fin NINODE)) : RSys P :=
  { s with held := update s.held p l }

@[simps] def setNamed (j : Nat) (b : Bool) : RSys P := { s with named := update s.named j b }

@[simps] def setGen (j n : Nat) : RSys P := { s with gen := update s.gen j n }

/-- Replace one entry of the table. -/
def setEntry (e : Fin NINODE) (t : Entry DInode) : RSys P := s.setTab (update s.tab e t)

/-- A process takes a reference. -/
def take (e : Fin NINODE) : RSys P := s.setHeld p (e ::ₘ s.held p)

/-- A process drops a reference: `ip->ref--`. -/
def release (e : Fin NINODE) : RSys P :=
  ((s.setEntry e (s.tab e).drop).setHeld p ((s.held p).erase e)).setPc p .idle

/-- `iupdate`: the inode in memory becomes `di`, and so does the one on disk. -/
def update (e : Fin NINODE) (di : DInode) : RSys P :=
  (s.setEntry e ((s.tab e).cache di)).setDisk (s.tab e).inum di

end RSys

/-- The end of `ilock`: read the inode from disk if necessary. -/
def finishLock (s : RSys P) (e : Fin NINODE) : Except String (RSys P) :=
  if (s.tab e).valid then .ok s
  else if (s.disk (s.tab e).inum).type = 0 then .error "ilock: no type"
  else .ok (s.setEntry e (((s.tab e).cache (s.disk (s.tab e).inum)).setValid true))

/-- The next critical section of the call that a process is in. -/
def advance (s : RSys P) (p : P) : Outcome (RSys P) :=
  match s.pc p with
  | .idle => .blocked
  | .trunc e g => .ok ((s.update e (emptied (s.tab e).mem)).setPc p (.clear e g))
  | .clear e _ => .ok ((s.update e ((s.tab e).mem.setType 0)).setPc p (.inval e))
  | .inval e => .ok (((s.setEntry e ((s.tab e).setValid false)).setLock e none).setPc p (.drop e))
  | .drop e => .ok (s.release p e)
  | .scan type j =>
    if j < s.ninodes then
      if (s.disk j).type = 0 then
        .ok (((s.setDisk j (DInode.zero.setType type)).setGen j (s.gen j + 1)).setPc p
          (.marked type j (s.gen j + 1)))
      else .ok (s.setPc p (.scan type (j + 1)))
    else .panic "ialloc: no inodes"
  | .marked type j g =>
    match s.tab.iget j with
    | .ok (e, tab) => .ok (((s.setTab tab).take p e).setPc p (.fresh type e g))
    | .error msg => .panic msg
  | .fresh type e g =>
    if s.lock e = none then .ok ((s.setLock e (some p)).setPc p (.loading type e g)) else .blocked
  | .loading type e g =>
    match finishLock s e with
    | .ok s => .ok (s.setPc p (.allocated type e g))
    | .error msg => .panic msg
  | .allocated _ _ _ => .ok (s.setPc p .idle)
  | .wait e => if s.lock e = none then .ok ((s.setLock e (some p)).setPc p (.load e)) else .blocked
  | .load e =>
    match finishLock s e with
    | .ok s => .ok (s.setPc p .idle)
    | .error msg => .panic msg

/-- What processes that are not in a call do.  They use inodes that they refer to. -/
def rstep (s : RSys P) : RAct P → Outcome (RSys P)
  | .iget p j =>
    if s.pc p = .idle ∧ j < s.ninodes ∧ s.named j = true then
      match s.tab.iget j with
      | .ok (e, tab) => .ok ((s.setTab tab).take p e)
      | .error msg => .panic msg
    else .blocked
  | .idup p e =>
    if s.pc p = .idle ∧ e ∈ s.held p then .ok ((s.setEntry e (s.tab e).dup).take p e) else .blocked
  | .ilock p e =>
    if s.pc p = .idle ∧ e ∈ s.held p ∧ s.lock e ≠ some p then .ok (s.setPc p (.wait e)) else .blocked
  | .iunlock p e =>
    if s.pc p = .idle ∧ s.lock e = some p then .ok (s.setLock e none) else .blocked
  | .iput p e =>
    if s.pc p = .idle ∧ e ∈ s.held p ∧ s.lock e ≠ some p then
      if (s.tab e).ref = 1 ∧ (s.tab e).valid = true ∧ (s.tab e).mem.nlink = 0 then
        -- acquiresleep does not wait, and no directory entry names the inode
        if s.lock e = none ∧ s.named (s.tab e).inum = false then
          .ok ((s.setLock e (some p)).setPc p (.trunc e (s.gen (s.tab e).inum)))
        else .blocked
      else .ok (s.release p e)
    else .blocked
  | .ialloc p type => if s.pc p = .idle ∧ type ≠ 0 then .ok (s.setPc p (.scan type 1)) else .blocked
  | .store p e di =>
    if s.pc p = .idle ∧ s.lock e = some p ∧ di.type = (s.tab e).mem.type then .ok (s.update e di)
    else .blocked
  | .link p e =>
    if s.pc p = .idle ∧ e ∈ s.held p then .ok (s.setNamed (s.tab e).inum true) else .blocked
  | .unlink p j => if s.pc p = .idle then .ok (s.setNamed j false) else .blocked
  | .step p => advance s p

end Machine

/-! ### The invariant -/

section Invariant

variable {P : Type} {s s' : RSys P} {p q : P} {e : Fin NINODE} {j : Nat}

/-- The process is in `iput`, past the point where it writes, with its reference to go. -/
def Pending : Pc → Fin NINODE → Prop
  | .inval e, e' => e' = e
  | .drop e, e' => e' = e
  | _, _ => False

/-- The process is in `ilock` and has the lock. -/
def Loading : Pc → Fin NINODE → Prop
  | .loading _ e _, e' => e' = e
  | .load e, e' => e' = e
  | _, _ => False

/-- The process has the lock of no entry that it is still to load, and no reference to go. -/
def Pc.calm : Pc → Bool
  | .inval _ | .drop _ | .loading _ _ _ | .load _ => false
  | _ => true

theorem Pc.calm_spec {pc : Pc} (h : pc.calm = true) :
    (∀ e, ¬ Pending pc e) ∧ (∀ e, ¬ Loading pc e) ∧ ∀ e, pc ≠ .inval e := by
  cases pc <;> simp_all [Pc.calm, Pending, Loading]

/-- The inode on which a process counts that others leave it alone: the one that it frees, or
has got from `ialloc`. -/
def Guard (s : RSys P) (p : P) (j : Nat) : Prop :=
  match s.pc p with
  | .trunc e _ | .clear e _ | .fresh _ e _ | .loading _ e _ | .allocated _ e _ => (s.tab e).inum = j
  | .marked _ i _ => i = j
  | _ => False

/-- Others have nothing to do with inode `j`, apart from what is left of an `iput`. -/
structure Alone (s : RSys P) (p : P) (j : Nat) : Prop where
  named : s.named j = false
  holders : ∀ q e, q ≠ p → e ∈ s.held q → (s.tab e).inum = j → Pending (s.pc q) e
  marked : ∀ q type g, q ≠ p → s.pc q ≠ .marked type j g

/-- An inode as `ialloc` has left it. -/
structure Window (s : RSys P) (p : P) (type : Int16) (j g : Nat) : Prop where
  ne : type ≠ 0
  disk : s.disk j = DInode.zero.setType type
  gen : s.gen j = g
  alone : Alone s p j

/-- The lock of the inode that is to be freed is held, and so is the only reference. -/
structure Freeing (s : RSys P) (p : P) (e : Fin NINODE) (g : Nat) : Prop where
  lock : s.lock e = some p
  valid : (s.tab e).valid = true
  once : (s.held p).count e = 1
  gen : s.gen (s.tab e).inum = g
  alone : Alone s p (s.tab e).inum
  sole : ∀ q, q ≠ p → e ∉ s.held q

/-- What a process knows at its position. -/
def At (s : RSys P) (p : P) : Prop :=
  match s.pc p with
  | .idle => True
  | .trunc e g | .clear e g => Freeing s p e g
  | .inval e => s.lock e = some p ∧ (s.held p).count e = 1
  | .drop e => s.lock e ≠ some p ∧ (s.held p).count e = 1
  | .scan type _ => type ≠ 0
  | .marked type j g => j < s.ninodes ∧ Window s p type j g ∧ ∀ e ∈ s.held p, (s.tab e).inum ≠ j
  | .fresh type e g => e ∈ s.held p ∧ Window s p type (s.tab e).inum g
  | .loading type e g => s.lock e = some p ∧ Window s p type (s.tab e).inum g
  | .allocated type e g =>
    s.lock e = some p ∧ Window s p type (s.tab e).inum g ∧ (s.tab e).valid = true ∧
      (s.tab e).mem = s.disk (s.tab e).inum
  | .wait e => e ∈ s.held p
  | .load e => s.lock e = some p

/-- The table counts the references that processes have, with one entry for each inode. -/
structure Counted [Fintype P] (s : RSys P) : Prop where
  uniq : s.tab.Uniq
  ref : ∀ e, (s.tab e).ref = ∑ p, (s.held p).count e
  lt : ∀ e, 0 < (s.tab e).ref → (s.tab e).inum < s.ninodes

/-- The invariant. -/
structure RInv [Fintype P] (s : RSys P) : Prop where
  counted : Counted s
  lock : ∀ e p, s.lock e = some p → e ∈ s.held p
  locked : ∀ e p, s.lock e = some p → (s.tab e).valid = true ∨ Loading (s.pc p) e
  named : ∀ j, s.named j = true → (s.disk j).type ≠ 0
  /-- A valid entry is what is on disk, unless it is about to become invalid. -/
  cur : ∀ e, 0 < (s.tab e).ref → (s.tab e).valid = true →
    (∃ p, s.pc p = .inval e) ∨ (s.tab e).mem = s.disk (s.tab e).inum ∧ (s.tab e).mem.type ≠ 0
  /-- An inode to which somebody refers is allocated, unless what is left of an `iput` does. -/
  alive : ∀ p e, e ∈ s.held p → Pending (s.pc p) e ∨ (s.disk (s.tab e).inum).type ≠ 0
  at_ : ∀ p, At s p

/-! ### What the invariant excludes -/

variable [Fintype P] {e' : Fin NINODE}

theorem Counted.ref_pos (h : Counted s) (he : e ∈ s.held p) : 0 < (s.tab e).ref := by
  rw [h.ref e]
  exact sum_pos' (fun _ _ => Nat.zero_le _) ⟨p, mem_univ p, count_pos.mpr he⟩

/-- Who holds the last reference holds it once, and no other process does. -/
theorem Counted.sole (h : Counted s) (he : e ∈ s.held p) (href : (s.tab e).ref = 1) :
    (s.held p).count e = 1 ∧ ∀ q, q ≠ p → e ∉ s.held q := by
  classical
  have hp := one_le_count_iff_mem.mpr he
  have hle : (s.held p).count e ≤ 1 := by
    rw [← href, h.ref e]
    exact single_le_sum (f := fun q => (s.held q).count e) (fun _ _ => Nat.zero_le _)
      (mem_univ p)
  refine ⟨le_antisymm hle hp, fun q hq hmem => ?_⟩
  have htwo : ∑ r ∈ {q, p}, (s.held r).count e ≤ 1 := by
    rw [← href, h.ref e]
    exact sum_le_sum_of_subset (subset_univ _)
  rw [Finset.sum_pair hq] at htwo
  have := one_le_count_iff_mem.mpr hmem
  omega

theorem Counted.entry_eq (h : Counted s) (he : e ∈ s.held p) (he' : e' ∈ s.held q)
    (hj : (s.tab e).inum = (s.tab e').inum) : e = e' :=
  h.uniq e e' (h.ref_pos he) (h.ref_pos he') hj

/-- The entry that a process is about to invalidate is locked by it. -/
theorem RInv.lock_of_inval (h : RInv s) (hpc : s.pc p = .inval e) : s.lock e = some p := by
  have hat := h.at_ p
  rw [At, hpc] at hat
  exact hat.1

/-- A valid entry that is locked by a process elsewhere in the code is what is on disk. -/
theorem RInv.cur_of_lock (h : RInv s) (hl : s.lock e = some p) (hpc : s.pc p ≠ .inval e) (hv : (s.tab e).valid = true) :
    (s.tab e).mem = s.disk (s.tab e).inum ∧ (s.tab e).mem.type ≠ 0 := by
  rcases h.cur e (h.counted.ref_pos (h.lock e p hl)) hv with ⟨q, hq⟩ | hcur
  · have hqp : q = p := Option.some.inj ((h.lock_of_inval hq).symm.trans hl)
    exact absurd (hqp ▸ hq) hpc
  · exact hcur

theorem RInv.guard (h : RInv s) (hg : Guard s p j) : Alone s p j ∧ (s.disk j).type ≠ 0 := by
  have hat := h.at_ p
  have hwin : ∀ {type g}, Window s p type j g → Alone s p j ∧ (s.disk j).type ≠ 0 := fun hw =>
    ⟨hw.alone, by rw [hw.disk]; exact hw.ne⟩
  have hfree : ∀ {e g}, s.pc p ≠ .inval e → Freeing s p e g → (s.tab e).inum = j →
      Alone s p j ∧ (s.disk j).type ≠ 0 := by
    rintro e g hpc hf rfl
    obtain ⟨hm, ht⟩ := h.cur_of_lock hf.lock hpc hf.valid
    exact ⟨hf.alone, hm ▸ ht⟩
  unfold At at hat
  unfold Guard at hg
  rcases hpc : s.pc p with - | ⟨e, g⟩ | ⟨e, g⟩ | e | e | ⟨type, i⟩ | ⟨type, i, g⟩ | ⟨type, e, g⟩ |
    ⟨type, e, g⟩ | ⟨type, e, g⟩ | e | e <;> rw [hpc] at hat hg
  · exact hg.elim
  · exact hfree (by simp [hpc]) hat hg
  · exact hfree (by simp [hpc]) hat hg
  · exact hg.elim
  · exact hg.elim
  · exact hg.elim
  · subst hg
    exact hwin hat.2.1
  · subst hg
    exact hwin hat.2
  · subst hg
    exact hwin hat.2
  · subst hg
    exact hwin hat.2.1
  · exact hg.elim
  · exact hg.elim

/-! ### A step of another process -/

/-- A step of `p`, as the other processes see it. -/
structure Acts (s s' : RSys P) (p : P) : Prop where
  ninodes : s'.ninodes = s.ninodes
  pc : ∀ q, q ≠ p → s'.pc q = s.pc q
  held : ∀ q, q ≠ p → s'.held q = s.held q
  lock : ∀ e q, q ≠ p → (s'.lock e = some q ↔ s.lock e = some q)
  inum : ∀ e q, q ≠ p → e ∈ s.held q → (s'.tab e).inum = (s.tab e).inum
  entry : ∀ e q, q ≠ p → s.lock e = some q →
    (s'.tab e).valid = (s.tab e).valid ∧ (s'.tab e).mem = (s.tab e).mem
  disk : ∀ j q, q ≠ p → Guard s q j → s'.disk j = s.disk j ∧ s'.gen j = s.gen j ∧ s'.named j = s.named j
  /-- The process gets no reference to an inode on which another one counts. -/
  own : ∀ j q, q ≠ p → Guard s q j → ∀ e ∈ s'.held p, (s'.tab e).inum = j →
    e ∈ s.held p ∧ (s.tab e).inum = j ∧ (Pending (s.pc p) e → Pending (s'.pc p) e)
  marked : ∀ j q, q ≠ p → Guard s q j → ∀ type g, s'.pc p ≠ .marked type j g

omit [Fintype P] in
theorem Acts.alone (ha : Acts s s' p) (hq : q ≠ p) (hin : ∀ r e, e ∈ s.held r → r ≠ p →
    (s'.tab e).inum = (s.tab e).inum) (hg : Guard s q j) (h : Alone s q j) : Alone s' q j := by
  refine ⟨(ha.disk j q hq hg).2.2.trans h.named, fun r e hr he hj => ?_, fun r type g hr => ?_⟩
  · rcases eq_or_ne r p with rfl | hrp
    · obtain ⟨he', hj', hpend⟩ := ha.own j q hq hg e he hj
      exact hpend (h.holders r e hr he' hj')
    rw [ha.held r hrp] at he
    rw [hin r e he hrp] at hj
    rw [ha.pc r hrp]
    exact h.holders r e hr he hj
  · rcases eq_or_ne r p with rfl | hrp
    · exact ha.marked j q hq hg type g
    · rw [ha.pc r hrp]
      exact h.marked r type g hr

/-- **Steps of others do not change what a process knows.** -/
theorem Acts.at_ (h : RInv s) (ha : Acts s s' p) (hq : q ≠ p) : At s' q := by
  have hat := h.at_ q
  have halone : ∀ {j}, Guard s q j → Alone s' q j := fun hg =>
    ha.alone hq (fun r e he hr => ha.inum e r hr he) hg (h.guard hg).1
  have hwin : ∀ {type j g}, Guard s q j → Window s q type j g → Window s' q type j g := by
    intro type j g hg hw
    obtain ⟨hd, hgen, -⟩ := ha.disk j q hq hg
    exact ⟨hw.ne, hd.trans hw.disk, hgen.trans hw.gen, halone hg⟩
  have hfree : ∀ {e g}, Guard s q (s.tab e).inum → Freeing s q e g → Freeing s' q e g := by
    intro e g hg hw
    have hin := ha.inum e q hq (h.lock e q hw.lock)
    refine ⟨(ha.lock e q hq).mpr hw.lock, (ha.entry e q hq hw.lock).1.trans hw.valid,
      by rw [ha.held q hq]; exact hw.once, ?_, ?_, fun r hr he => ?_⟩
    · rw [hin, (ha.disk _ q hq hg).2.1]
      exact hw.gen
    · rw [hin]
      exact halone hg
    · rcases eq_or_ne r p with rfl | hrp
      · exact hw.sole r hr (ha.own _ q hq hg e he hin).1
      · rw [ha.held r hrp] at he
        exact hw.sole r hr he
  unfold At at hat ⊢
  rw [ha.pc q hq]
  rcases hpc : s.pc q with - | ⟨e, g⟩ | ⟨e, g⟩ | e | e | ⟨type, j⟩ | ⟨type, j, g⟩ | ⟨type, e, g⟩ |
    ⟨type, e, g⟩ | ⟨type, e, g⟩ | e | e <;> rw [hpc] at hat
  · trivial
  · exact hfree (by rw [Guard, hpc]) hat
  · exact hfree (by rw [Guard, hpc]) hat
  · exact ⟨(ha.lock e q hq).mpr hat.1, by rw [ha.held q hq]; exact hat.2⟩
  · exact ⟨fun hl => hat.1 ((ha.lock e q hq).mp hl), by rw [ha.held q hq]; exact hat.2⟩
  · exact hat
  · refine ⟨ha.ninodes ▸ hat.1, hwin (by rw [Guard, hpc]) hat.2.1, fun e he => ?_⟩
    rw [ha.held q hq] at he
    rw [ha.inum e q hq he]
    exact hat.2.2 e he
  · show e ∈ s'.held q ∧ Window s' q type (s'.tab e).inum g
    rw [ha.inum e q hq hat.1, ha.held q hq]
    exact ⟨hat.1, hwin (by rw [Guard, hpc]) hat.2⟩
  · show s'.lock e = some q ∧ Window s' q type (s'.tab e).inum g
    rw [ha.inum e q hq (h.lock e q hat.1)]
    exact ⟨(ha.lock e q hq).mpr hat.1, hwin (by rw [Guard, hpc]) hat.2⟩
  · have hg : Guard s q (s.tab e).inum := by rw [Guard, hpc]
    obtain ⟨hv, hm⟩ := ha.entry e q hq hat.1
    show s'.lock e = some q ∧ Window s' q type (s'.tab e).inum g ∧ (s'.tab e).valid = true ∧
      (s'.tab e).mem = s'.disk (s'.tab e).inum
    rw [ha.inum e q hq (h.lock e q hat.1), hv, hm, (ha.disk _ q hq hg).1]
    exact ⟨(ha.lock e q hq).mpr hat.1, hwin hg hat.2.1, hat.2.2⟩
  · rw [ha.held q hq]
    exact hat
  · exact (ha.lock e q hq).mpr hat

/-- **A step keeps the invariant** if it keeps the part that is about the process itself. -/
theorem Acts.inv (h : RInv s) (ha : Acts s s' p) (hc : Counted s') (hlock : ∀ e, s'.lock e = some p →
      e ∈ s'.held p ∧ ((s'.tab e).valid = true ∨ Loading (s'.pc p) e))
    (hnamed : ∀ j, s'.named j = true → (s'.disk j).type ≠ 0)
    (hcur : ∀ e, 0 < (s'.tab e).ref → (s'.tab e).valid = true → (∃ p, s'.pc p = .inval e) ∨
      (s'.tab e).mem = s'.disk (s'.tab e).inum ∧ (s'.tab e).mem.type ≠ 0)
    (halive : ∀ e, e ∈ s'.held p → Pending (s'.pc p) e ∨ (s'.disk (s'.tab e).inum).type ≠ 0)
    (hothers : ∀ e q, q ≠ p → e ∈ s.held q → (s.disk (s.tab e).inum).type ≠ 0 →
      Pending (s.pc q) e ∨ (s'.disk (s.tab e).inum).type ≠ 0)
    (hat : At s' p) : RInv s' := by
  refine ⟨hc, fun e q hl => ?_, fun e q hl => ?_, hnamed, hcur, fun q e he => ?_, fun q => ?_⟩
  · rcases eq_or_ne q p with rfl | hq
    · exact (hlock e hl).1
    · rw [ha.held q hq]
      exact h.lock e q ((ha.lock e q hq).mp hl)
  · rcases eq_or_ne q p with rfl | hq
    · exact (hlock e hl).2
    · have hl' := (ha.lock e q hq).mp hl
      rw [ha.pc q hq, (ha.entry e q hq hl').1]
      exact h.locked e q hl'
  · rcases eq_or_ne q p with rfl | hq
    · exact halive e he
    · rw [ha.held q hq] at he
      rw [ha.pc q hq, ha.inum e q hq he]
      exact (h.alive q e he).elim .inl (hothers e q hq he)
  · rcases eq_or_ne q p with rfl | hq
    · exact hat
    · exact ha.at_ h hq

omit [Fintype P] in
/-- Another process that is about to invalidate an entry still is. -/
theorem Acts.inval (ha : Acts s s' p) (hp : ∀ e, s.pc p ≠ .inval e) (hi : ∃ q, s.pc q = .inval e) :
    ∃ q, s'.pc q = .inval e := by
  obtain ⟨q, hq⟩ := hi
  have hqp : q ≠ p := fun hqp => hp e (hqp ▸ hq)
  exact ⟨q, (ha.pc q hqp).trans hq⟩

/-! ### The steps -/

omit [Fintype P] in
/-- A process locks or unlocks an entry that no other has locked. -/
theorem lock_update {o : Option P} (hold : ∀ q, q ≠ p → s.lock e ≠ some q) (hnew : ∀ q, q ≠ p → o ≠ some q)
    (e' : Fin NINODE) (q : P) (hq : q ≠ p) :
    update s.lock e o e' = some q ↔ s.lock e' = some q := by
  rcases eq_or_ne e' e with rfl | he
  · rw [update_self]
    exact ⟨fun h => absurd h (hnew q hq), fun h => absurd h (hold q hq)⟩
  · rw [update_of_ne he]

omit [Fintype P] in
/-- What a process has locked after it has unlocked an entry. -/
theorem lock_of_unlocked (h : update s.lock e none e' = some p) : e' ≠ e ∧ s.lock e' = some p := by
  rcases eq_or_ne e' e with rfl | he
  · rw [update_self] at h
    cases h
  · rw [update_of_ne he] at h
    exact ⟨he, h⟩

variable [DecidableEq P] {pc : Pc}

omit [Fintype P] in
theorem setPc_self (s : RSys P) (p : P) (pc : Pc) : (s.setPc p pc).pc p = pc := update_self ..

omit [Fintype P] in
theorem setPc_of_ne (s : RSys P) (pc : Pc) (hq : q ≠ p) : (s.setPc p pc).pc q = s.pc q :=
  update_of_ne hq ..

omit [Fintype P] in
theorem at_idle (s : RSys P) (p : P) : At (s.setPc p .idle) p := by
  rw [At, setPc_self]
  trivial

variable {lock : Fin NINODE → Option P}

/-- **A process changes its position, and locks.** -/
theorem RInv.move (h : RInv s) (hlock : ∀ e q, q ≠ p → (lock e = some q ↔ s.lock e = some q))
    (hown : ∀ e, lock e = some p → e ∈ s.held p ∧ ((s.tab e).valid = true ∨ Loading pc e))
    (hinval : ∀ e, s.pc p ≠ .inval e) (hpend : ∀ e, Pending (s.pc p) e → Pending pc e)
    (hmark : ∀ type j g, pc ≠ .marked type j g)
    (hat : At ({ s with lock := lock }.setPc p pc) p) : RInv ({ s with lock := lock }.setPc p pc) := by
  have hself : ({ s with lock := lock }.setPc p pc).pc p = pc := setPc_self ..
  have ha : Acts s ({ s with lock := lock }.setPc p pc) p := by
    refine ⟨rfl, fun q hq => setPc_of_ne _ _ hq, fun _ _ => rfl, hlock, fun _ _ _ _ => rfl,
      fun _ _ _ _ => ⟨rfl, rfl⟩, fun _ _ _ _ => ⟨rfl, rfl, rfl⟩,
      fun _ _ _ _ e he hj => ⟨he, hj, fun hp => ?_⟩, fun j _ _ _ type g => ?_⟩
    · rw [hself]
      exact hpend e hp
    · rw [hself]
      exact hmark type j g
  refine ha.inv h ⟨h.counted.uniq, h.counted.ref, h.counted.lt⟩ ?_ h.named ?_ ?_
    (fun _ _ _ _ ht => .inr ht) hat
  · rw [hself]
    exact hown
  · intro e href hv
    exact (h.cur e href hv).imp_left (ha.inval hinval)
  · rw [hself]
    intro e he
    exact (h.alive p e he).imp_left (hpend e)

/-- A process goes on, and keeps its locks. -/
theorem RInv.goto (h : RInv s) (hload : ∀ e, Loading (s.pc p) e → (s.tab e).valid = true)
    (hinval : ∀ e, s.pc p ≠ .inval e) (hpend : ∀ e, Pending (s.pc p) e → Pending pc e)
    (hmark : ∀ type j g, pc ≠ .marked type j g) (hat : At (s.setPc p pc) p) : RInv (s.setPc p pc) := by
  refine h.move (fun _ _ _ => .rfl) (fun e hl => ⟨h.lock e p hl, .inl ?_⟩) hinval hpend hmark hat
  exact (h.locked e p hl).elim id (hload e)

/-- A process that has nothing to load goes on. -/
theorem RInv.go (h : RInv s) (hc : (s.pc p).calm = true) (hmark : ∀ type j g, pc ≠ .marked type j g)
    (hat : At (s.setPc p pc) p) : RInv (s.setPc p pc) := by
  obtain ⟨hpend, hload, hinval⟩ := Pc.calm_spec hc
  exact h.goto (fun e hl => absurd hl (hload e)) hinval (fun e hp => absurd hp (hpend e)) hmark hat

/-- A process locks an entry. -/
theorem RInv.acquire (h : RInv s) (he : e ∈ s.held p) (hfree : s.lock e = none)
    (hv : (s.tab e).valid = true ∨ Loading pc e) (hc : (s.pc p).calm = true)
    (hmark : ∀ type j g, pc ≠ .marked type j g) (hat : At ((s.setLock e (some p)).setPc p pc) p) :
    RInv ((s.setLock e (some p)).setPc p pc) := by
  obtain ⟨hpend, hload, hinval⟩ := Pc.calm_spec hc
  refine h.move (lock_update (by simp [hfree]) fun q hq hc => hq (Option.some.inj hc).symm)
    (fun e' hl => ?_) hinval (fun e' hp => absurd hp (hpend e')) hmark hat
  rcases eq_or_ne e' e with rfl | hee
  · exact ⟨he, hv⟩
  · rw [update_of_ne hee] at hl
    exact ⟨h.lock e' p hl, .inl ((h.locked e' p hl).resolve_right (hload e'))⟩

/-- A step of `p` on the entry `e`, which it has locked: the entry becomes `t` and the inode on
disk `di`. -/
structure Writes (s s' : RSys P) (p : P) (e : Fin NINODE) (t : Entry DInode) (di : DInode) (pc : Pc) :
    Prop where
  ninodes : s'.ninodes = s.ninodes
  disk : s'.disk = update s.disk (s.tab e).inum di
  tab : s'.tab = update s.tab e t
  lock : ∀ e q, q ≠ p → (s'.lock e = some q ↔ s.lock e = some q)
  pc : s'.pc = update s.pc p pc
  held : s'.held = s.held
  named : s'.named = s.named
  gen : s'.gen = s.gen

section Writes

variable {t : Entry DInode} {di : DInode}

omit [Fintype P] in
theorem Writes.base (hw : Writes s s' p e t di pc) (hin : t.inum = (s.tab e).inum)
    (href : t.ref = (s.tab e).ref) (e' : Fin NINODE) :
    (s'.tab e').inum = (s.tab e').inum ∧ (s'.tab e').ref = (s.tab e').ref := by
  rw [hw.tab]
  rcases eq_or_ne e' e with rfl | he
  · rw [update_self]
    exact ⟨hin, href⟩
  · rw [update_of_ne he]
    exact ⟨rfl, rfl⟩

omit [Fintype P] in
theorem Writes.pc_self (hw : Writes s s' p e t di pc) : s'.pc p = pc := by
  rw [hw.pc, update_self]

theorem Writes.acts (h : RInv s) (hw : Writes s s' p e t di pc) (hl : s.lock e = some p)
    (hin : t.inum = (s.tab e).inum) (href : t.ref = (s.tab e).ref)
    (hpend : ∀ e, Pending (s.pc p) e → Pending pc e) (hmark : ∀ type j g, pc ≠ .marked type j g)
    (hdi : di = s.disk (s.tab e).inum ∨ ¬ Pending (s.pc p) e) : Acts s s' p := by
  have hbase := hw.base hin href
  refine ⟨hw.ninodes, fun q hq => ?_, fun q _ => by rw [hw.held], hw.lock, fun e' q _ _ => (hbase e').1,
    fun e' q hq hl' => ?_, fun j q hq hg => ⟨?_, by rw [hw.gen], by rw [hw.named]⟩,
    fun j q hq hg e' he' hj => ⟨hw.held ▸ he', (hbase e').1 ▸ hj, ?_⟩, fun j q _ _ => ?_⟩
  · rw [hw.pc, update_of_ne hq]
  · -- another process has another entry locked
    have he : e' ≠ e := by
      rintro rfl
      exact hq (Option.some.inj (hl'.symm.trans hl))
    rw [hw.tab, update_of_ne he]
    exact ⟨rfl, rfl⟩
  · rw [hw.disk]
    by_cases hj : j = (s.tab e).inum
    · subst hj
      rw [update_self]
      refine hdi.resolve_right fun hp => hp ?_
      exact (h.guard hg).1.holders p e hq.symm (h.lock e p hl) rfl
    · rw [update_of_ne hj]
  · rw [hw.pc_self]
    exact hpend e'
  · rw [hw.pc_self]
    exact fun type g => hmark type j g

/-- **A process works on an inode that it has locked.** -/
theorem Writes.inv (h : RInv s) (hw : Writes s s' p e t di pc) (hl : s.lock e = some p)
    (hin : t.inum = (s.tab e).inum) (href : t.ref = (s.tab e).ref)
    (hpend : ∀ e, Pending (s.pc p) e → Pending pc e) (hmark : ∀ type j g, pc ≠ .marked type j g)
    (hdi : di = s.disk (s.tab e).inum ∨ ¬ Pending (s.pc p) e)
    (hown : ∀ e', s'.lock e' = some p → s.lock e' = some p ∧ ((s'.tab e').valid = true ∨ Loading pc e'))
    (hinval : ∀ e', s.pc p = .inval e' → e' = e)
    (hcur : t.valid = true → pc = .inval e ∨ t.mem = di ∧ t.mem.type ≠ 0)
    (htype : di.type = 0 → (s.disk (s.tab e).inum).type ≠ 0 →
      Pending pc e ∧ Alone s p (s.tab e).inum)
    (hat : At s' p) : RInv s' := by
  have hbase := hw.base hin href
  have ha := hw.acts h hl hin href hpend hmark hdi
  have hmem := h.lock e p hl
  refine ha.inv h ⟨fun e₁ e₂ h₁ h₂ h₁₂ => ?_, fun e' => ?_, fun e' h' => ?_⟩ (fun e' hl' => ?_)
    (fun j hj => ?_) (fun e' h' hv => ?_) (fun e' he' => ?_) (fun e' q hq he' ht => ?_) hat
  · rw [(hbase _).1, (hbase _).1] at h₁₂
    rw [(hbase _).2] at h₁ h₂
    exact h.counted.uniq e₁ e₂ h₁ h₂ h₁₂
  · rw [(hbase e').2, hw.held]
    exact h.counted.ref e'
  · rw [(hbase e').2] at h'
    rw [(hbase e').1, hw.ninodes]
    exact h.counted.lt e' h'
  · obtain ⟨hlock, hv⟩ := hown e' hl'
    rw [hw.held, hw.pc_self]
    exact ⟨h.lock e' p hlock, hv⟩
  · rw [hw.named] at hj
    have ht := h.named j hj
    rw [hw.disk]
    by_cases hje : j = (s.tab e).inum
    · subst hje
      rw [update_self]
      intro hz
      exact Bool.false_ne_true ((htype hz ht).2.named.symm.trans hj)
    · rw [update_of_ne hje]
      exact ht
  · rw [(hbase e').2] at h'
    rw [(hbase e').1, hw.disk]
    rcases eq_or_ne e' e with rfl | he
    · rw [hw.tab, update_self] at hv ⊢
      rw [update_self]
      exact (hcur hv).imp_left fun hpc => ⟨p, hw.pc_self.trans hpc⟩
    · -- another entry is about another inode
      have hne : (s.tab e').inum ≠ (s.tab e).inum := fun hc =>
        he (h.counted.uniq e' e h' (h.counted.ref_pos hmem) hc)
      rw [hw.tab, update_of_ne he] at hv ⊢
      rw [update_of_ne hne]
      refine (h.cur e' h' hv).imp_left fun ⟨q, hq⟩ => ⟨q, ?_⟩
      have hqp : q ≠ p := fun hqp => he (hinval e' (hqp ▸ hq))
      rw [ha.pc q hqp, hq]
  · rw [hw.held] at he'
    rw [hw.pc_self, (hbase e').1, hw.disk]
    rcases h.alive p e' he' with hp | ht
    · exact .inl (hpend e' hp)
    by_cases hne : (s.tab e').inum = (s.tab e).inum
    · obtain rfl : e' = e := h.counted.entry_eq he' hmem hne
      rw [update_self]
      exact (em (di.type = 0)).imp (fun hz => (htype hz ht).1) id
    · rw [update_of_ne hne]
      exact .inr ht
  · rw [hw.disk]
    by_cases hne : (s.tab e').inum = (s.tab e).inum
    · rw [hne, update_self]
      exact (em (di.type = 0)).imp
        (fun hz => (htype hz (hne ▸ ht)).2.holders q e' hq he' hne) id
    · rw [update_of_ne hne]
      exact .inr ht

end Writes

omit [Fintype P] in
theorem setPc_eq_self (h : s.pc p = pc) : s.setPc p pc = s := by
  subst h
  rw [RSys.setPc, update_eq_self]

theorem sum_count_cons (held : P → Multiset (Fin NINODE)) (p : P) (e e' : Fin NINODE) :
    ∑ q, (update held p (e ::ₘ held p) q).count e' =
      ∑ q, (held q).count e' + if e' = e then 1 else 0 := by
  have hterm : ∀ q, (update held p (e ::ₘ held p) q).count e' =
      (held q).count e' + if q = p then (if e' = e then 1 else 0) else 0 := by
    intro q
    rcases eq_or_ne q p with rfl | hq
    · rw [update_self, count_cons, if_pos rfl]
    · rw [update_of_ne hq, if_neg hq, add_zero]
  rw [sum_congr rfl fun q _ => hterm q, sum_add_distrib, sum_ite_eq',
    if_pos (mem_univ p)]

variable {tab : Table DInode}

/-- **A process gets a reference** to an inode that is allocated, and on which no other counts. -/
theorem RInv.take (h : RInv s) (hg : s.tab.Got j e tab) (hj : j < s.ninodes)
    (htype : (s.disk j).type ≠ 0) (hfree : ∀ q, q ≠ p → ¬ Guard s q j)
    (hc : (s.pc p).calm = true) (hmark : ∀ type j g, pc ≠ .marked type j g)
    (hat : At (((s.setTab tab).take p e).setPc p pc) p) :
    RInv (((s.setTab tab).take p e).setPc p pc) := by
  obtain ⟨hpend, hload, hinval⟩ := Pc.calm_spec hc
  have hself : (((s.setTab tab).take p e).setPc p pc).pc p = pc := setPc_self ..
  have hheld : (((s.setTab tab).take p e).setPc p pc).held p = e ::ₘ s.held p := update_self ..
  have hown : ∀ e' ∈ e ::ₘ s.held p, (tab e').inum ≠ j → e' ∈ s.held p := by
    intro e' he' hne
    exact (mem_cons.mp he').resolve_left fun hc => hne (hc ▸ hg.entry.1)
  have ha : Acts s (((s.setTab tab).take p e).setPc p pc) p := by
    refine ⟨rfl, fun q hq => setPc_of_ne _ _ hq, fun q hq => update_of_ne hq _ _, fun _ _ _ => .rfl,
      fun e' q _ he' => (hg.keeps (h.counted.ref_pos he')).1,
      fun e' q _ hl => (hg.keeps (h.counted.ref_pos (h.lock e' q hl))).2, fun _ _ _ _ => ⟨rfl, rfl, rfl⟩,
      fun j' q hq hgq e' he' hj' => ?_, fun j' _ _ _ type g => ?_⟩
    · have hne : j' ≠ j := fun hc => hfree q hq (hc ▸ hgq)
      rw [hheld] at he'
      have hmem := hown e' he' (hj' ▸ hne)
      exact ⟨hmem, (hg.keeps (h.counted.ref_pos hmem)).1 ▸ hj', fun hp => absurd hp (hpend e')⟩
    · rw [hself]
      exact hmark type j' g
  refine ha.inv h ⟨hg.uniq h.counted.uniq, fun e' => ?_, fun e' h' => ?_⟩ (fun e' hl => ?_) h.named
    (fun e' h' hv => ?_) (fun e' he' => ?_) (fun _ _ _ _ ht => .inr ht) hat
  · show (tab e').ref = _
    rw [hg.ref, h.counted.ref e']
    exact (sum_count_cons s.held p e e').symm
  · show (tab e').inum < s.ninodes
    rcases hg.of_pos h' with hpos | rfl
    · rw [(hg.keeps hpos).1]
      exact h.counted.lt e' hpos
    · rw [hg.entry.1]
      exact hj
  · have hmem := h.lock e' p hl
    rw [hheld]
    refine ⟨mem_cons_of_mem hmem, .inl ?_⟩
    exact (hg.keeps (h.counted.ref_pos hmem)).2.1.trans ((h.locked e' p hl).resolve_right (hload e'))
  · have hpos := hg.of_valid h' hv
    obtain ⟨hi, hval, hm⟩ := hg.keeps hpos
    show _ ∨ (tab e').mem = s.disk (tab e').inum ∧ (tab e').mem.type ≠ 0
    rw [hi, hm]
    exact (h.cur e' hpos (hval.symm.trans hv)).imp_left (ha.inval hinval)
  · rw [hheld] at he'
    refine .inr ?_
    show (s.disk (tab e').inum).type ≠ 0
    by_cases hne : (tab e').inum = j
    · rw [hne]
      exact htype
    · have hmem := hown e' he' hne
      rw [(hg.keeps (h.counted.ref_pos hmem)).1]
      exact (h.alive p e' hmem).resolve_left (hpend e')

/-- **A process drops a reference.** -/
theorem RInv.release (h : RInv s) (he : e ∈ s.held p) (hl : s.lock e ≠ some p) (hload : ∀ e, ¬ Loading (s.pc p) e)
    (hpend : ∀ e', Pending (s.pc p) e' → e' = e ∧ (s.held p).count e = 1)
    (hinval : ∀ e, s.pc p ≠ .inval e) : RInv (s.release p e) := by
  have hself : (s.release p e).pc p = .idle := setPc_self ..
  have hheld : (s.release p e).held p = (s.held p).erase e := update_self ..
  have hgone : ∀ e', e' ∈ (s.held p).erase e → ¬ Pending (s.pc p) e' := by
    intro e' he' hp
    obtain ⟨rfl, hone⟩ := hpend e' hp
    have hpos := count_pos.mpr he'
    rw [count_erase_self, hone] at hpos
    exact lt_irrefl _ hpos
  have hbase : ∀ e', ((s.release p e).tab e').inum = (s.tab e').inum ∧
      ((s.release p e).tab e').valid = (s.tab e').valid ∧
      ((s.release p e).tab e').mem = (s.tab e').mem ∧
      ((s.release p e).tab e').ref = (s.tab e').ref - if e' = e then 1 else 0 := by
    intro e'
    rcases eq_or_ne e' e with rfl | hee
    · simp [RSys.release, RSys.setEntry, Entry.drop]
    · simp [RSys.release, RSys.setEntry, hee]
  have hpos : ∀ {e'}, 0 < ((s.release p e).tab e').ref → 0 < (s.tab e').ref := by
    intro e' h'
    rw [(hbase e').2.2.2] at h'
    exact lt_of_lt_of_le h' (Nat.sub_le _ _)
  have ha : Acts s (s.release p e) p := by
    refine ⟨rfl, fun q hq => setPc_of_ne _ _ hq, fun q hq => update_of_ne hq _ _, fun _ _ _ => .rfl,
      fun e' _ _ _ => (hbase e').1, fun e' _ _ _ => ⟨(hbase e').2.1, (hbase e').2.2.1⟩,
      fun _ _ _ _ => ⟨rfl, rfl, rfl⟩, fun j' q hq hgq e' he' hj' => ?_, fun j' _ _ _ type g => ?_⟩
    · rw [hheld] at he'
      exact ⟨mem_of_mem_erase he', (hbase e').1 ▸ hj', fun hp => absurd hp (hgone e' he')⟩
    · rw [hself]
      exact Pc.noConfusion
  refine ha.inv h ⟨fun e₁ e₂ h₁ h₂ h₁₂ => ?_, fun e' => ?_, fun e' h' => ?_⟩ (fun e' hl' => ?_) h.named
    (fun e' h' hv => ?_) (fun e' he' => ?_) (fun _ _ _ _ ht => .inr ht) ?_
  · rw [(hbase _).1, (hbase _).1] at h₁₂
    exact h.counted.uniq e₁ e₂ (hpos h₁) (hpos h₂) h₁₂
  · have hsum := sum_count_cons (s.release p e).held p e e'
    have hback : update (s.release p e).held p (e ::ₘ (s.release p e).held p) = s.held := by
      rw [hheld, cons_erase he]
      show update (update s.held p _) p _ = _
      rw [update_idem, update_eq_self]
    rw [hback, ← h.counted.ref e'] at hsum
    rw [(hbase e').2.2.2, hsum, Nat.add_sub_cancel]
  · rw [(hbase e').1]
    exact h.counted.lt e' (hpos h')
  · have hne : e' ≠ e := fun hc => hl (hc ▸ hl')
    rw [hheld, (hbase e').2.1]
    exact ⟨(mem_erase_of_ne hne).mpr (h.lock e' p hl'),
      .inl ((h.locked e' p hl').resolve_right (hload e'))⟩
  · rw [(hbase e').2.1] at hv
    rw [(hbase e').1, (hbase e').2.2.1]
    exact (h.cur e' (hpos h') hv).imp_left (ha.inval hinval)
  · rw [hheld] at he'
    rw [(hbase e').1]
    exact .inr ((h.alive p e' (mem_of_mem_erase he')).resolve_left (hgone e' he'))
  · rw [At, hself]
    trivial

variable {type : Int16}

/-- **`ialloc` claims a free inode on disk.** -/
theorem RInv.claim (h : RInv s) (hpc : s.pc p = .scan type j) (hj : j < s.ninodes) (hz : (s.disk j).type = 0) :
    RInv (((s.setDisk j (DInode.zero.setType type)).setGen j (s.gen j + 1)).setPc p
      (.marked type j (s.gen j + 1))) := by
  generalize hs' : ((s.setDisk j (DInode.zero.setType type)).setGen j (s.gen j + 1)).setPc p
      (.marked type j (s.gen j + 1)) = s'
  have hself : s'.pc p = .marked type j (s.gen j + 1) := hs' ▸ setPc_self ..
  have hother : ∀ q, q ≠ p → s'.pc q = s.pc q := fun q hq => hs' ▸ setPc_of_ne _ _ hq
  have hdj : s'.disk j = DInode.zero.setType type := hs' ▸ update_self ..
  have hdne : ∀ i, i ≠ j → s'.disk i = s.disk i := fun i hi => hs' ▸ update_of_ne hi _ _
  have hgj : s'.gen j = s.gen j + 1 := hs' ▸ update_self ..
  have hgne : ∀ i, i ≠ j → s'.gen i = s.gen i := fun i hi => hs' ▸ update_of_ne hi _ _
  have hbase : s'.ninodes = s.ninodes ∧ s'.tab = s.tab ∧ s'.lock = s.lock ∧ s'.held = s.held ∧
      s'.named = s.named := hs' ▸ ⟨rfl, rfl, rfl, rfl, rfl⟩
  obtain ⟨hnin, htab, hlock, hheld, hnamed⟩ := hbase
  have htype : type ≠ 0 := by
    have hat := h.at_ p
    rw [At, hpc] at hat
    exact hat
  have hkeep : ∀ i, (s.disk i).type ≠ 0 → s'.disk i = s.disk i := fun i hi =>
    hdne i fun hc => hi (hc ▸ hz)
  have hnone : ∀ e, e ∈ s.held p → (s.tab e).inum ≠ j := by
    intro e he hc
    rcases h.alive p e he with hp | ht
    · rw [hpc] at hp
      exact hp
    · exact ht (hc ▸ hz)
  have ha : Acts s s' p := by
    refine ⟨hnin, hother, fun q _ => by rw [hheld], fun _ _ _ => by rw [hlock], fun _ _ _ _ => by rw [htab],
      fun _ _ _ _ => by rw [htab]; exact ⟨rfl, rfl⟩, fun i q hq hg => ?_, fun i q hq hg e he hi => ?_,
      fun i q hq hg type' g => ?_⟩
    · have hi := (h.guard hg).2
      exact ⟨hkeep i hi, hgne i fun hc => hi (hc ▸ hz), by rw [hnamed]⟩
    · rw [hheld] at he
      rw [htab] at hi
      rw [hpc]
      exact ⟨he, hi, False.elim⟩
    · rw [hself]
      intro hc
      injection hc with _ hij _
      exact (h.guard hg).2 (hij ▸ hz)
  refine ha.inv h ⟨htab ▸ h.counted.uniq, fun e => ?_, fun e h' => ?_⟩ (fun e hl => ?_) (fun i hi => ?_)
    (fun e h' hv => ?_) (fun e he => ?_) (fun e q _ _ ht => ?_) ?_
  · rw [htab, hheld]
    exact h.counted.ref e
  · rw [htab] at h' ⊢
    rw [hnin]
    exact h.counted.lt e h'
  · rw [hlock] at hl
    rw [hheld, htab]
    refine ⟨h.lock e p hl, .inl ((h.locked e p hl).resolve_right ?_)⟩
    rw [hpc]
    exact id
  · rw [hnamed] at hi
    rw [hkeep i (h.named i hi)]
    exact h.named i hi
  · rw [htab] at h' hv ⊢
    rcases h.cur e h' hv with hi | ⟨hm, ht⟩
    · exact .inl (ha.inval (by simp [hpc]) hi)
    · rw [hkeep _ (hm ▸ ht)]
      exact .inr ⟨hm, ht⟩
  · rw [hheld] at he
    rw [htab, hdne _ (hnone e he)]
    refine .inr ((h.alive p e he).resolve_left ?_)
    rw [hpc]
    exact id
  · rw [hkeep _ ht]
    exact .inr ht
  · rw [At, hself]
    refine ⟨hnin ▸ hj, ⟨htype, hdj, hgj, ?_, fun q e hq he hi => ?_, fun q type' g hq hc => ?_⟩, fun e he => ?_⟩
    · rw [hnamed, Bool.eq_false_iff]
      exact fun hc => h.named j hc hz
    · rw [hheld] at he
      rw [htab] at hi
      rw [hother q hq]
      exact (h.alive q e he).resolve_right fun ht => ht (hi ▸ hz)
    · rw [hother q hq] at hc
      exact (h.guard (by rw [Guard, hc])).2 hz
    · rw [hheld] at he
      rw [htab]
      exact hnone e he

/-! ### Runs -/

omit [Fintype P] [DecidableEq P] in
theorem Alone.congr (h : Alone s p j) (hnamed : s'.named = s.named) (hpc : ∀ q, q ≠ p → s'.pc q = s.pc q)
    (hheld : ∀ q, q ≠ p → s'.held q = s.held q)
    (hinum : ∀ e q, q ≠ p → e ∈ s.held q → (s'.tab e).inum = (s.tab e).inum) : Alone s' p j := by
  refine ⟨hnamed ▸ h.named, fun q e hq he hj => ?_, fun q type g hq => ?_⟩
  · rw [hheld q hq] at he
    rw [hinum e q hq he] at hj
    rw [hpc q hq]
    exact h.holders q e hq he hj
  · rw [hpc q hq]
    exact h.marked q type g hq

variable {g : Nat}

omit [Fintype P] in
/-- What a process knows about an inode that it has got from `ialloc` does not depend on locks,
nor on its own position. -/
theorem Window.move (h : Window s p type j g) : Window ({ s with lock := lock }.setPc p pc) p type j g :=
  ⟨h.ne, h.disk, h.gen, h.alone.congr rfl (fun _ hq => setPc_of_ne _ _ hq) (fun _ _ => rfl) fun _ _ _ _ => rfl⟩

theorem loading_cases (h : Loading pc e) : (∃ type g, pc = .loading type e g) ∨ pc = .load e := by
  cases pc with
  | loading type e' g =>
    obtain rfl : e = e' := h
    exact .inl ⟨type, g, rfl⟩
  | load e' =>
    obtain rfl : e = e' := h
    exact .inr rfl
  | _ => exact h.elim

/-- **`ilock` does not panic** and leaves what is on disk in the entry. -/
theorem RInv.finishLock (h : RInv s) (hl : s.lock e = some p) (hpc : Loading (s.pc p) e) :
    ∃ tab, Realloc.finishLock s e = .ok (s.setTab tab) ∧ RInv (s.setTab tab) ∧
      (∀ e', (tab e').inum = (s.tab e').inum) ∧ (tab e).valid = true ∧
      (tab e).mem = s.disk (s.tab e).inum := by
  have hat := h.at_ p
  have hcases := loading_cases hpc
  have hexcl : ¬ Pending (s.pc p) e := by
    rcases hcases with ⟨type, g, hc⟩ | hc <;> rw [hc] <;> exact id
  have hinval : ∀ e', s.pc p ≠ .inval e' := by
    rcases hcases with ⟨type, g, hc⟩ | hc <;> simp [hc]
  have hmark : ∀ type j g, s.pc p ≠ .marked type j g := by
    rcases hcases with ⟨type, g, hc⟩ | hc <;> simp [hc]
  by_cases hv : (s.tab e).valid = true
  · obtain ⟨hm, -⟩ := h.cur_of_lock hl (hinval e) hv
    exact ⟨s.tab, by rw [Realloc.finishLock, if_pos hv]; rfl, h, fun _ => rfl, hv, hm⟩
  have ht := (h.alive p e (h.lock e p hl)).resolve_left hexcl
  generalize htab : update s.tab e
    (((s.tab e).cache (s.disk (s.tab e).inum)).setValid true) = tab
  have hok : Realloc.finishLock s e = .ok (s.setTab tab) := by
    rw [Realloc.finishLock, if_neg hv, if_neg ht, RSys.setEntry, htab]
  have hw : Writes s (s.setTab tab) p e (((s.tab e).cache (s.disk (s.tab e).inum)).setValid true)
      (s.disk (s.tab e).inum) (s.pc p) :=
    ⟨rfl, (update_eq_self _ _).symm, htab.symm, fun _ _ _ => .rfl,
      (update_eq_self _ _).symm, rfl, rfl, rfl⟩
  have hin : ∀ e', (tab e').inum = (s.tab e').inum := fun e' => (hw.base rfl rfl e').1
  have hself : tab e = ((s.tab e).cache (s.disk (s.tab e).inum)).setValid true := by
    rw [← htab, update_self]
  refine ⟨tab, hok, ?_, hin, by rw [hself]; rfl, by rw [hself]; rfl⟩
  refine hw.inv h hl rfl rfl (fun _ hp => hp) hmark (.inl rfl) (fun e' hl' => ⟨hl', ?_⟩)
    (fun e' hc => absurd hc (hinval e')) (fun _ => .inr ⟨rfl, ht⟩) (fun hz => absurd hz ht) ?_
  · rcases eq_or_ne e' e with rfl | he
    · exact .inr hpc
    · rw [hw.tab, update_of_ne he]
      exact h.locked e' p hl'
  · rcases hcases with ⟨type, g, hc⟩ | hc <;> rw [At, hc] at hat
    · rw [At, RSys.setTab_pc, hc]
      obtain ⟨-, hwin⟩ := hat
      refine ⟨hl, ?_⟩
      rw [RSys.setTab_tab, hin]
      exact ⟨hwin.ne, hwin.disk, hwin.gen,
        hwin.alone.congr rfl (fun _ _ => rfl) (fun _ _ => rfl) fun e' _ _ _ => hin e'⟩
    · rw [At, RSys.setTab_pc, hc]
      exact hl

omit [Fintype P] in
theorem writes_update (s : RSys P) (p : P) (e : Fin NINODE) (di : DInode) (pc : Pc) :
    Writes s ((s.update e di).setPc p pc) p e ((s.tab e).cache di) di pc :=
  ⟨rfl, rfl, rfl, fun _ _ _ => .rfl, rfl, rfl, rfl, rfl⟩

variable {di : DInode}

/-- `iupdate` by a process that has locked the inode. -/
theorem RInv.update (h : RInv s) (hl : s.lock e = some p) (hv : (s.tab e).valid = true)
    (hc : (s.pc p).calm = true) (hmark : ∀ type j g, pc ≠ .marked type j g)
    (htype : di.type ≠ 0 ∨ pc = .inval e ∧ Alone s p (s.tab e).inum)
    (hat : At ((s.update e di).setPc p pc) p) : RInv ((s.update e di).setPc p pc) := by
  obtain ⟨hpend, hload, hinval⟩ := Pc.calm_spec hc
  have hw := writes_update s p e di pc
  refine hw.inv h hl rfl rfl (fun e hp => absurd hp (hpend e)) hmark (.inr (hpend e)) (fun e' hl' => ⟨hl', .inl ?_⟩)
    (fun e' hc => absurd hc (hinval e')) (fun _ => ?_) (fun hz _ => ?_) hat
  · rw [hw.tab]
    rcases eq_or_ne e' e with rfl | he
    · rw [update_self]
      exact hv
    · rw [update_of_ne he]
      exact (h.locked e' p hl').resolve_right (hload e')
  · exact htype.elim (fun ht => .inr ⟨rfl, ht⟩) fun hi => .inl hi.1
  · obtain ⟨rfl, halone⟩ := htype.resolve_left fun ht => ht hz
    exact ⟨rfl, halone⟩

omit [Fintype P] in
theorem Freeing.update (hf : Freeing s p e g) : Freeing ((s.update e di).setPc p pc) p e g := by
  have hin := fun e' => ((writes_update s p e di pc).base rfl rfl e').1
  have hv : (((s.update e di).setPc p pc).tab e).valid = (s.tab e).valid := by
    show (Function.update s.tab e _ e).valid = _
    rw [update_self]
    rfl
  refine ⟨hf.lock, hv.trans hf.valid, hf.once, ?_, ?_, hf.sole⟩
  · rw [hin]
    exact hf.gen
  · rw [hin]
    exact hf.alone.congr rfl (fun _ hq => setPc_of_ne _ _ hq) (fun _ _ => rfl) fun e' _ _ _ => hin e'

section

variable (h : RInv s)

include h

/-- **Every step keeps the invariant.** -/
theorem advance_inv (hs : advance s p = .ok s') : RInv s' := by
  have hat := h.at_ p
  rw [advance] at hs
  rcases hpc : s.pc p with - | ⟨e, g⟩ | ⟨e, g⟩ | e | e | ⟨type, j⟩ | ⟨type, j, g⟩ | ⟨type, e, g⟩ |
    ⟨type, e, g⟩ | ⟨type, e, g⟩ | e | e <;> rw [At, hpc] at hat <;> rw [hpc] at hs <;> simp only at hs hat
  · cases hs
  · -- `itrunc`
    cases hs
    obtain ⟨-, ht⟩ := h.cur_of_lock hat.lock (by simp [hpc]) hat.valid
    refine h.update hat.lock hat.valid (by rw [hpc]; rfl) (by simp) (.inl ht) ?_
    rw [At, setPc_self]
    exact hat.update
  · -- the type becomes 0: whoever else refers to the inode is about to drop it
    cases hs
    refine h.update hat.lock hat.valid (by rw [hpc]; rfl) (by simp) (.inr ⟨rfl, hat.alone⟩) ?_
    rw [At, setPc_self]
    exact ⟨hat.lock, hat.once⟩
  · -- the entry becomes invalid, and is unlocked
    cases hs
    have hw : Writes s (((s.setEntry e ((s.tab e).setValid false)).setLock e none).setPc p (.drop e)) p e
        ((s.tab e).setValid false) (s.disk (s.tab e).inum) (.drop e) :=
      ⟨rfl, (update_eq_self _ _).symm, rfl,
        lock_update (fun q hq hc => hq (Option.some.inj (hc.symm.trans hat.1))) (by simp), rfl, rfl, rfl, rfl⟩
    refine hw.inv h hat.1 rfl rfl (by simp [hpc, Pending]) (by simp) (.inl rfl) (fun e' hl => ?_)
      (by simp [hpc]) (by simp [Entry.setValid]) (fun hz ht => absurd hz ht) ?_
    · obtain ⟨he, hl'⟩ := lock_of_unlocked hl
      rw [hw.tab, update_of_ne he]
      refine ⟨hl', .inl ((h.locked e' p hl').resolve_right ?_)⟩
      simp [hpc, Loading]
    · rw [At, setPc_self]
      exact ⟨by simp, hat.2⟩
  · cases hs
    exact h.release (count_pos.mp (by omega)) hat.1 (by simp [hpc, Loading])
      (by simpa [hpc, Pending] using hat.2) (by simp [hpc])
  · split at hs
    · split at hs
      · cases hs
        exact h.claim hpc ‹_› ‹_›
      cases hs
      refine h.go (by rw [hpc]; rfl) (by simp) ?_
      rw [At, setPc_self]
      exact hat
    · cases hs
  · -- `iget` in `ialloc`
    obtain ⟨hj, hwin, hnone⟩ := hat
    have hspec := Table.iget_spec s.tab j
    split at hs
    · rename_i e tab hget
      rw [hget] at hspec
      have hg : s.tab.Got j e tab := hspec
      cases hs
      have hguard : Guard s p j := by rw [Guard, hpc]
      refine h.take hg hj (h.guard hguard).2 (fun q hq hgq => ?_) (by rw [hpc]; rfl) (by simp) ?_
      · exact (h.guard hgq).1.marked p type g hq.symm hpc
      rw [At, setPc_self]
      have hin : (tab e).inum = j := hg.entry.1
      refine ⟨?_, ?_⟩
      · show e ∈ update s.held p (e ::ₘ s.held p) p
        rw [update_self]
        exact mem_cons_self e _
      · show Window _ p type (tab e).inum g
        rw [hin]
        refine ⟨hwin.ne, hwin.disk, hwin.gen, hwin.alone.congr rfl (fun _ hq => setPc_of_ne _ _ hq)
          (fun _ hq => update_of_ne hq _ _) fun e' q _ he' => ?_⟩
        exact (hg.keeps (h.counted.ref_pos he')).1
    · cases hs
  · -- `acquiresleep` after `ialloc`
    split at hs
    · cases hs
      refine h.acquire hat.1 ‹_› (.inr rfl) (by rw [hpc]; rfl) (by simp) ?_
      rw [At, setPc_self]
      exact ⟨update_self .., hat.2.move⟩
    · cases hs
  · obtain ⟨tab, hok, hinv, hin, hv, hm⟩ := h.finishLock hat.1 (by rw [hpc]; rfl)
    rw [hok] at hs
    cases hs
    have hat' := hinv.at_ p
    rw [At, RSys.setTab_pc, hpc] at hat'
    refine hinv.goto (by simpa [hpc, Loading] using hv) (by simp [hpc]) (by simp [hpc, Pending]) (by simp) ?_
    rw [At, setPc_self]
    refine ⟨hat.1, hat'.2.move, hv, ?_⟩
    show (tab e).mem = s.disk (tab e).inum
    rw [hm, hin]
  · cases hs
    exact h.go (by rw [hpc]; rfl) (by simp) (at_idle s p)
  · -- `acquiresleep` in `ilock`
    split at hs
    · cases hs
      refine h.acquire hat ‹_› (.inr rfl) (by rw [hpc]; rfl) (by simp) ?_
      rw [At, setPc_self]
      exact update_self ..
    · cases hs
  · obtain ⟨tab, hok, hinv, -, hv, -⟩ := h.finishLock hat (by rw [hpc]; rfl)
    rw [hok] at hs
    cases hs
    exact hinv.goto (by simpa [hpc, Loading] using hv) (by simp [hpc]) (by simp [hpc, Pending]) (by simp) (at_idle _ p)

omit [DecidableEq P] in
/-- An entry for an inode is made in a directory, or taken out of it. -/
theorem RInv.setNamed (hpc : s.pc p = .idle) {b : Bool}
    (hb : b = true → (s.disk j).type ≠ 0 ∧ ∀ q, q ≠ p → ¬ Guard s q j) : RInv (s.setNamed j b) := by
  have hat : At (s.setNamed j b) p := by
    rw [At, RSys.setNamed_pc, hpc]
    trivial
  have ha : Acts s (s.setNamed j b) p := by
    refine ⟨rfl, fun _ _ => rfl, fun _ _ => rfl, fun _ _ _ => .rfl, fun _ _ _ _ => rfl, fun _ _ _ _ => ⟨rfl, rfl⟩,
      fun i q hq hg => ⟨rfl, rfl, ?_⟩, fun _ _ _ _ e he hj => ⟨he, hj, id⟩, fun _ _ _ _ => by simp [hpc]⟩
    rw [RSys.setNamed_named]
    rcases eq_or_ne i j with rfl | hi
    · rw [update_self, (h.guard hg).1.named, Bool.eq_false_iff]
      exact fun hc => (hb hc).2 q hq hg
    · rw [update_of_ne hi]
  refine ha.inv h ⟨h.counted.uniq, h.counted.ref, h.counted.lt⟩ (fun e hl => ⟨h.lock e p hl, h.locked e p hl⟩)
    (fun i hi => ?_) h.cur (h.alive p) (fun _ _ _ _ ht => .inr ht) hat
  rw [RSys.setNamed_named] at hi
  rcases eq_or_ne i j with rfl | hij
  · rw [update_self] at hi
    exact (hb hi).1
  · rw [update_of_ne hij] at hi
    exact h.named i hi

omit [DecidableEq P] in
/-- An idle process refers to inodes that are allocated and on which no other counts. -/
theorem RInv.of_idle (hpc : s.pc p = .idle) (he : e ∈ s.held p) :
    (s.disk (s.tab e).inum).type ≠ 0 ∧ ∀ q, q ≠ p → ¬ Guard s q (s.tab e).inum := by
  have hpend : ¬ Pending (s.pc p) e := by simp [hpc, Pending]
  refine ⟨(h.alive p e he).resolve_left hpend, fun q hq hg => hpend ?_⟩
  exact (h.guard hg).1.holders p e hq.symm he rfl

/-- A process that is idle gets a reference. -/
theorem RInv.take_idle (hg : s.tab.Got j e tab) (hpc : s.pc p = .idle)
    (hj : j < s.ninodes) (htype : (s.disk j).type ≠ 0) (hfree : ∀ q, q ≠ p → ¬ Guard s q j) :
    RInv ((s.setTab tab).take p e) := by
  have hinv : RInv (((s.setTab tab).take p e).setPc p .idle) :=
    h.take hg hj htype hfree (by rw [hpc]; rfl) (by simp) (at_idle _ p)
  rwa [setPc_eq_self (s := (s.setTab tab).take p e) hpc] at hinv

/-- **Every step keeps the invariant.** -/
theorem rstep_inv {a : RAct P} (hs : rstep s a = .ok s') : RInv s' := by
  cases a with
  | iget p j =>
    rw [rstep] at hs
    split at hs
    · rename_i hc
      obtain ⟨hpc, hj, hnamed⟩ := hc
      have hspec := Table.iget_spec s.tab j
      split at hs
      · rename_i e tab hget
        rw [hget] at hspec
        cases hs
        refine h.take_idle hspec hpc hj (h.named j hnamed) fun q _ hg => ?_
        exact Bool.false_ne_true ((h.guard hg).1.named.symm.trans hnamed)
      · cases hs
    · cases hs
  | idup p e =>
    rw [rstep] at hs
    split at hs
    · rename_i hc
      obtain ⟨hpc, he⟩ := hc
      cases hs
      have hpos := h.counted.ref_pos he
      obtain ⟨htype, hguard⟩ := h.of_idle hpc he
      exact h.take_idle (.hit e hpos rfl) hpc (h.counted.lt e hpos) htype hguard
    · cases hs
  | ilock p e =>
    rw [rstep] at hs
    split at hs
    · rename_i hc
      obtain ⟨hpc, he, -⟩ := hc
      cases hs
      refine h.go (by rw [hpc]; rfl) (by simp) ?_
      rw [At, setPc_self]
      exact he
    · cases hs
  | iunlock p e =>
    rw [rstep] at hs
    split at hs
    · rename_i hc
      obtain ⟨hpc, hl⟩ := hc
      cases hs
      have hinv : RInv ((s.setLock e none).setPc p .idle) := by
        refine h.move (lock_update (fun q hq hc => hq (Option.some.inj (hc.symm.trans hl))) (by simp))
          (fun e' hl' => ?_) (by simp [hpc]) (by simp [hpc, Pending]) (by simp) (at_idle _ p)
        obtain ⟨-, hl'⟩ := lock_of_unlocked hl'
        exact ⟨h.lock e' p hl', .inl ((h.locked e' p hl').resolve_right (by simp [hpc, Loading]))⟩
      rwa [setPc_eq_self (s := s.setLock e none) hpc] at hinv
    · cases hs
  | iput p e =>
    rw [rstep] at hs
    split at hs
    · rename_i hc
      obtain ⟨hpc, he, hl⟩ := hc
      split at hs
      · rename_i hlast
        obtain ⟨href, hv, -⟩ := hlast
        split at hs
        · rename_i hfree
          obtain ⟨hfree, hnamed⟩ := hfree
          cases hs
          refine h.acquire he hfree (.inl hv) (by rw [hpc]; rfl) (by simp) ?_
          obtain ⟨hone, hsole⟩ := h.counted.sole he href
          obtain ⟨-, hguard⟩ := h.of_idle hpc he
          rw [At, setPc_self]
          refine ⟨update_self .., hv, hone, rfl, ⟨hnamed, fun q e' hq he' hj => ?_,
            fun q type g hq hc => ?_⟩, hsole⟩
          · obtain rfl : e' = e := h.counted.entry_eq he' he hj
            exact absurd he' (hsole q hq)
          · rw [setPc_of_ne _ _ hq] at hc
            have hc' : s.pc q = .marked type (s.tab e).inum g := hc
            exact hguard q hq (by rw [Guard, hc'])
        · cases hs
      · cases hs
        exact h.release he hl (by simp [hpc, Loading]) (by simp [hpc, Pending]) (by simp [hpc])
    · cases hs
  | ialloc p type =>
    rw [rstep] at hs
    split at hs
    · rename_i hc
      obtain ⟨hpc, htype⟩ := hc
      cases hs
      refine h.go (by rw [hpc]; rfl) (by simp) ?_
      rw [At, setPc_self]
      exact htype
    · cases hs
  | store p e di =>
    rw [rstep] at hs
    split at hs
    · rename_i hc
      obtain ⟨hpc, hl, htype⟩ := hc
      cases hs
      have hv := (h.locked e p hl).resolve_right (by simp [hpc, Loading])
      obtain ⟨-, ht⟩ := h.cur_of_lock hl (by simp [hpc]) hv
      have hinv : RInv ((s.update e di).setPc p .idle) :=
        h.update hl hv (by rw [hpc]; rfl) (by simp) (.inl (htype ▸ ht)) (at_idle _ p)
      rwa [setPc_eq_self (s := s.update e di) hpc] at hinv
    · cases hs
  | link p e =>
    rw [rstep] at hs
    split at hs
    · rename_i hc
      cases hs
      exact h.setNamed hc.1 fun _ => h.of_idle hc.1 hc.2
    · cases hs
  | unlink p j =>
    rw [rstep] at hs
    split at hs
    · rename_i hpc
      cases hs
      exact h.setNamed hpc (by simp)
    · cases hs
  | step p => exact advance_inv h hs

end

/-- The system has started: no inode is in memory, and directory entries name allocated
inodes. -/
structure Started (s : RSys P) : Prop where
  tab : ∀ e, (s.tab e).ref = 0
  lock : ∀ e, s.lock e = none
  pc : ∀ p, s.pc p = .idle
  held : ∀ p, s.held p = 0
  named : ∀ j, s.named j = true → (s.disk j).type ≠ 0

omit [DecidableEq P] in
theorem Started.inv (h : Started s) : RInv s := by
  refine ⟨⟨fun e e' hpos => ?_, fun e => ?_, fun e hpos => ?_⟩, fun e p hl => ?_, fun e p hl => ?_, h.named,
    fun e hpos => ?_, fun p e he => ?_, fun p => ?_⟩
  · exact absurd (h.tab e) hpos.ne'
  · simp [h.tab, h.held]
  · exact absurd (h.tab e) hpos.ne'
  · simp [h.lock] at hl
  · simp [h.lock] at hl
  · exact absurd (h.tab e) hpos.ne'
  · simp [h.held] at he
  · rw [At, h.pc]
    trivial

theorem rinv_run {as : List (RAct P)} (h : Started s) (hr : Machine.Run rstep s as s') : RInv s' :=
  hr.invariant (fun _ _ _ hi hs => rstep_inv hi hs) h.inv

/-- **An inode that is freed and allocated again.**  In every state of every interleaving:

· whoever has got an inode from `ialloc` and locked it sees it freshly zeroed, with the type
  asked for, and nobody has got it from `ialloc` after that; that `ilock` does not panic;

· each inode has one entry, and its count is the number of references that processes have;

· a process in `iput` that is about to truncate or free an inode has it from before: nobody has got
  it from `ialloc` since the process looked at it.  What such a process does after it has freed the
  inode leaves all inodes on disk alone. -/
theorem free_realloc_race {as : List (RAct P)} (h : Started s) (hr : Machine.Run rstep s as s') :
    (∀ p type e g, s'.pc p = .allocated type e g → s'.lock e = some p ∧ (s'.tab e).valid = true ∧
      (s'.tab e).mem = DInode.zero.setType type ∧
      s'.disk (s'.tab e).inum = DInode.zero.setType type ∧ s'.gen (s'.tab e).inum = g) ∧
    (∀ p type e g msg, s'.pc p = .loading type e g → advance s' p ≠ .panic msg) ∧
    s'.tab.Uniq ∧ (∀ e, (s'.tab e).ref = ∑ p, (s'.held p).count e) ∧
    (∀ p e g, s'.pc p = .trunc e g ∨ s'.pc p = .clear e g →
      s'.lock e = some p ∧ s'.gen (s'.tab e).inum = g ∧ (s'.disk (s'.tab e).inum).type ≠ 0) ∧
    ∀ p e s'', s'.pc p = .inval e ∨ s'.pc p = .drop e → advance s' p = .ok s'' → s''.disk = s'.disk := by
  have hi := rinv_run h hr
  refine ⟨fun p type e g hpc => ?_, fun p type e g msg hpc => ?_, hi.counted.uniq, hi.counted.ref,
    fun p e g hpc => ?_, fun p e s'' hpc hs => ?_⟩
  · have hat := hi.at_ p
    rw [At, hpc] at hat
    obtain ⟨hl, hw, hv, hm⟩ := hat
    exact ⟨hl, hv, hm.trans hw.disk, hw.disk, hw.gen⟩
  · have hat := hi.at_ p
    rw [At, hpc] at hat
    obtain ⟨tab, hok, -⟩ := hi.finishLock hat.1 (by rw [hpc]; rfl)
    rw [advance, hpc]
    simp [hok]
  · have hguard : Guard s' p (s'.tab e).inum := by
      rcases hpc with hpc | hpc <;> rw [Guard, hpc]
    have hf : Freeing s' p e g := by
      have hat := hi.at_ p
      rcases hpc with hpc | hpc <;> rw [At, hpc] at hat <;> exact hat
    exact ⟨hf.lock, hf.gen, (hi.guard hguard).2⟩
  · rcases hpc with hpc | hpc <;> rw [advance, hpc] at hs <;> cases hs <;> rfl

end Invariant

/-! ### A run -/

/-- Two processes, and an inode 1 that a directory names. -/
def twoProcs : RSys (Fin 2) where
  ninodes := 2
  disk := fun j => if j = 1 then { DInode.zero.setType 2 with size := 7 } else DInode.zero
  tab := fun _ => { ref := 0, inum := 0, valid := false, mem := DInode.zero }
  lock := fun _ => none
  pc := fun _ => .idle
  held := fun _ => 0
  named := fun j => j = 1
  gen := fun _ => 0

/-- The first entry of the table. -/
def first : Fin NINODE := ⟨0, NINODE_pos⟩

/-- Process 0 frees inode 1, and process 1 has got it again before the reference is gone. -/
def reallocated : List (RAct (Fin 2)) :=
  [.iget 0 1, .ilock 0 first, .step 0, .step 0, .iunlock 0 first, .unlink 0 1, .iput 0 first, .step 0, .step 0,
    .ialloc 1 1, .step 1, .step 1, .step 0, .step 1, .step 1]

theorem twoProcs_started : Started twoProcs := by
  refine ⟨fun _ => rfl, fun _ => rfl, fun _ => rfl, fun _ => rfl, fun j hj => ?_⟩
  obtain rfl : j = 1 := by simpa [twoProcs] using hj
  decide

theorem free_realloc_race_twoProcs : ∃ s', Machine.Run rstep twoProcs reallocated s' ∧
    s'.pc 0 = .drop first ∧ (s'.tab first).ref = 2 ∧ s'.pc 1 = .allocated 1 first 1 ∧
    (s'.tab first).mem = DInode.zero.setType 1 := by
  have hok : Machine.passes rstep twoProcs reallocated (fun s =>
      s.pc 0 == .drop first && (s.tab first).ref == 2 && s.pc 1 == .allocated 1 first 1) = true := by
    decide
  obtain ⟨s, hrun, hs⟩ := Machine.run_of_passes hok
  simp only [Bool.and_eq_true, beq_iff_eq] at hs
  obtain ⟨⟨h0, href⟩, h1⟩ := hs
  exact ⟨s, hrun, h0, href, h1, ((free_realloc_race twoProcs_started hrun).1 1 1 first 1 h1).2.2.1⟩

end Xv6.Realloc
