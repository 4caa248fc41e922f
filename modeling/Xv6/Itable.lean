/-
Xv6/Itable.lean

The table of in-memory inodes, and who owns which block over whole runs.

`iget` finds the entry of an inode or recycles an unused one.  The table is
generic in what an entry caches, since two machines use it: here the entries
cache dinodes of a disk, in Kernel.lean the system calls run on it.

The machine of this file makes the calls that allocate and free blocks and
inodes, in any order and with any arguments: `writei` with any source, `itrunc`,
`ialloc`, `iput`, and what they need around them.  `TableInv` holds in every
state: each inode has one entry, a valid entry is what is on disk, and the
free map and the slots of the allocated inodes agree.  `block_ownership` reads
the consequences off it.
-/
import Xv6.FileContent
import Xv6.Lib.Machine

namespace Xv6

open Function List Safe

/-- Maximum number of active i-nodes. -/
def NINODE : Nat := 50

theorem NINODE_pos : 0 < NINODE := by decide

/-- An entry of `itable`; `mem` is the cached copy of what is on disk. -/
structure Entry (α : Type) where
  ref : Nat
  inum : Nat
  valid : Bool
  mem : α

namespace Entry

variable {α : Type}

/-- The entry with one reference more. -/
def dup (t : Entry α) : Entry α := { t with ref := t.ref + 1 }

/-- The entry with one reference less. -/
def drop (t : Entry α) : Entry α := { t with ref := t.ref - 1 }

/-- The entry with another copy in the cache. -/
def cache (t : Entry α) (mem : α) : Entry α := { t with mem := mem }

/-- The entry, read from disk or not. -/
def setValid (t : Entry α) (valid : Bool) : Entry α := { t with valid := valid }

/-- The entry given to another inode, which is not read yet. -/
def recycle (t : Entry α) (inum : Nat) : Entry α := { t with inum := inum, ref := 1, valid := false }

end Entry

/-- The inode table. -/
abbrev Table (α : Type) : Type := Fin NINODE → Entry α

namespace Table

variable {α : Type} {t t' : Table α} {inum : Nat}

/-- Find the inode with number `inum` and return its entry.  Does not lock the inode and
does not read it from disk. -/
def iget (t : Table α) (inum : Nat) : Except String (Fin NINODE × Table α) :=
  -- Is the inode already in the table?
  match (finRange NINODE).find? fun e => 0 < (t e).ref ∧ (t e).inum = inum with
  | some e => .ok (e, update t e (t e).dup)
  | none =>
    -- Recycle an inode entry.
    match (finRange NINODE).find? fun e => (t e).ref = 0 with
    | some e => .ok (e, update t e ((t e).recycle inum))
    | none => .error "iget: no inodes"

/-- Each inode has at most one entry in use. -/
def Uniq (t : Table α) : Prop :=
  ∀ e e', 0 < (t e).ref → 0 < (t e').ref → (t e).inum = (t e').inum → e = e'

/-- What `iget` did to the table. -/
inductive Got (t : Table α) (inum : Nat) : Fin NINODE → Table α → Prop
  | hit (e : Fin NINODE) (href : 0 < (t e).ref) (hinum : (t e).inum = inum) :
      Got t inum e (update t e (t e).dup)
  | recycled (e : Fin NINODE) (href : (t e).ref = 0)
      (hmiss : ∀ e', 0 < (t e').ref → (t e').inum ≠ inum) :
      Got t inum e (update t e ((t e).recycle inum))

theorem iget_spec (t : Table α) (inum : Nat) :
    Safe (· = "iget: no inodes") (iget t inum) fun r => Got t inum r.1 r.2 := by
  unfold iget
  rcases hfind : (finRange NINODE).find? (fun e => 0 < (t e).ref ∧ (t e).inum = inum) with - | e
  · have hmiss : ∀ e', 0 < (t e').ref → (t e').inum ≠ inum := by
      intro e' href hinum
      have hn := find?_eq_none.mp hfind e' (mem_finRange e')
      exact hn (by simp [href, hinum])
    rcases hempty : (finRange NINODE).find? (fun e => (t e).ref = 0) with - | e
    · exact error rfl
    · have href : (t e).ref = 0 := by simpa using find?_some hempty
      exact ok (Got.recycled e href hmiss)
  · have he : 0 < (t e).ref ∧ (t e).inum = inum := by simpa using find?_some hfind
    exact ok (Got.hit e he.1 he.2)

/-- With an unused entry, `iget` does not fail. -/
theorem iget_ok (t : Table α) (inum : Nat) (hfree : ∃ e, (t e).ref = 0) :
    ∃ e t', iget t inum = .ok (e, t') ∧ Got t inum e t' := by
  obtain ⟨e₀, he₀⟩ := hfree
  have hspec := iget_spec t inum
  rcases hget : iget t inum with msg | ⟨e, t'⟩
  · unfold iget at hget
    split at hget
    · cases hget
    · split at hget
      · cases hget
      · next hnone => exact absurd (decide_eq_true he₀) (find?_eq_none.mp hnone e₀ (mem_finRange e₀))
  · exact ⟨e, t', rfl, hspec.of_ok hget⟩

variable {e e' : Fin NINODE}

section

variable (h : Got t inum e t')

include h

/-- **An entry in use is never recycled**, and there is one entry for each inode. -/
theorem Got.uniq (hu : Uniq t) : Uniq t' := by
  cases h with
  | hit href hinum =>
    have hin : ∀ e', (update t e (t e).dup e').inum = (t e').inum := by
      intro e'
      rcases eq_or_ne e' e with rfl | he
      · rw [update_self]
        rfl
      · rw [update_of_ne he]
    have hpos : ∀ e', 0 < (update t e (t e).dup e').ref → 0 < (t e').ref := by
      intro e' h'
      rcases eq_or_ne e' e with rfl | he
      · exact href
      · rw [update_of_ne he] at h'
        exact h'
    intro e₁ e₂ h₁ h₂ h₁₂
    rw [hin, hin] at h₁₂
    exact hu e₁ e₂ (hpos e₁ h₁) (hpos e₂ h₂) h₁₂
  | recycled href hmiss =>
    intro e₁ e₂ h₁ h₂ h₁₂
    by_cases he₁ : e₁ = e <;> by_cases he₂ : e₂ = e
    · rw [he₁, he₂]
    · subst he₁
      rw [update_self, update_of_ne he₂] at h₁₂
      rw [update_of_ne he₂] at h₂
      exact absurd h₁₂.symm (hmiss e₂ h₂)
    · subst he₂
      rw [update_self, update_of_ne he₁] at h₁₂
      rw [update_of_ne he₁] at h₁
      exact absurd h₁₂ (hmiss e₁ h₁)
    · rw [update_of_ne he₁] at h₁ h₁₂
      rw [update_of_ne he₂] at h₂ h₁₂
      exact hu e₁ e₂ h₁ h₂ h₁₂

theorem Got.entry : (t' e).inum = inum ∧ 0 < (t' e).ref := by
  cases h with
  | hit href hinum =>
    rw [update_self]
    exact ⟨hinum, Nat.succ_pos _⟩
  | recycled => rw [update_self]; exact ⟨rfl, Nat.one_pos⟩

/-- The counts after `iget`. -/
theorem Got.ref (e' : Fin NINODE) : (t' e').ref = (t e').ref + if e' = e then 1 else 0 := by
  cases h with
  | hit =>
    rcases eq_or_ne e' e with rfl | he
    · rw [update_self, if_pos rfl]
      rfl
    · rw [update_of_ne he, if_neg he]
      rfl
  | recycled href =>
    rcases eq_or_ne e' e with rfl | he
    · rw [update_self, if_pos rfl, href]
      rfl
    · rw [update_of_ne he, if_neg he]
      rfl

/-- An entry in use stays what it is. -/
theorem Got.keeps (hpos : 0 < (t e').ref) :
    (t' e').inum = (t e').inum ∧ (t' e').valid = (t e').valid ∧ (t' e').mem = (t e').mem := by
  cases h with
  | hit =>
    rcases eq_or_ne e' e with rfl | he
    · rw [update_self]
      exact ⟨rfl, rfl, rfl⟩
    · rw [update_of_ne he]
      exact ⟨rfl, rfl, rfl⟩
  | recycled href =>
    have he : e' ≠ e := by
      rintro rfl
      exact absurd href hpos.ne'
    rw [update_of_ne he]
    exact ⟨rfl, rfl, rfl⟩

theorem Got.of_pos (hpos : 0 < (t' e').ref) : 0 < (t e').ref ∨ e' = e := by
  by_cases he : e' = e
  · exact .inr he
  · rw [h.ref, if_neg he] at hpos
    exact .inl hpos

/-- A valid entry was in use before. -/
theorem Got.of_valid (hpos : 0 < (t' e').ref) (hv : (t' e').valid = true) : 0 < (t e').ref := by
  rcases h.of_pos hpos with hpos | rfl
  · exact hpos
  cases h with
  | hit href => exact href
  | recycled =>
    rw [update_self] at hv
    exact absurd hv Bool.false_ne_true

end

end Table

namespace Fs

/-! ### Calls on the inodes in memory -/

/-- A disk and the inodes in memory. -/
structure ISys where
  disk : Disk
  tab : Table DInode

namespace ISys

/-- The in-memory inode of an entry. -/
def inode (s : ISys) (e : Fin NINODE) : Inode := { inum := (s.tab e).inum, di := (s.tab e).mem }

/-- The state with the disk and one entry replaced. -/
def set (s : ISys) (d : Disk) (e : Fin NINODE) (t : Entry DInode) : ISys :=
  { disk := d, tab := update s.tab e t }

theorem set_self (s : ISys) (d : Disk) (e : Fin NINODE) (t : Entry DInode) : (s.set d e t).tab e = t :=
  update_self ..

theorem set_of_ne (s : ISys) (d : Disk) {e e' : Fin NINODE} (t : Entry DInode) (h : e' ≠ e) :
    (s.set d e t).tab e' = s.tab e' := update_of_ne h _ _

end ISys

variable (sb : SuperBlock)

/-- Lock the given inode.  Reads the inode from disk if necessary. -/
def ilock (s : ISys) (e : Fin NINODE) : Except String ISys :=
  if (s.tab e).ref < 1 then .error "ilock"
  else if (s.tab e).valid then .ok s
  else if (dinode sb s.disk (s.tab e).inum).type = 0 then .error "ilock: no type"
  else .ok (s.set s.disk e { s.tab e with valid := true, mem := dinode sb s.disk (s.tab e).inum })

/-- The free path of `iput`: truncate and free the inode. -/
def ifree (s : ISys) (e : Fin NINODE) : Except String ISys := do
  let (d, ip) ← itrunc sb s.disk (s.inode e)
  let ip := { ip with di := ip.di.setType 0 }
  return s.set (iupdate sb d ip) e { s.tab e with valid := false, mem := ip.di }

/-- Drop a reference to an in-memory inode.  If that was the last reference and the
inode has no links to it, free the inode (and its content) on disk. -/
def iput (s : ISys) (e : Fin NINODE) : Except String ISys := do
  let s ← if (s.tab e).ref = 1 ∧ (s.tab e).valid = true ∧ (s.tab e).mem.nlink = 0 then ifree sb s e
    else .ok s
  return s.set s.disk e (s.tab e).drop

/-- A call on the inodes in memory.  The arguments of `writei` are the caller's memory,
the offset and the length. -/
inductive ICall where
  | iget (inum : Nat)
  | idup (e : Fin NINODE)
  | ilock (e : Fin NINODE)
  | iput (e : Fin NINODE)
  | writei (e : Fin NINODE) (src : Nat → Option UInt8) (off n : UInt32)
  | itrunc (e : Fin NINODE)
  | ialloc (type : Int16)
  -- a change of the other fields, and `iupdate`
  | update (e : Fin NINODE) (major minor nlink : Int16)

/-- A panic stops the machine. -/
def run {α σ : Type} (r : Except String α) (k : α → σ) : Outcome σ :=
  match r with
  | .ok a => .ok (k a)
  | .error msg => .panic msg

/-- The calls.  The caller has a reference, and the lock where the kernel asks for it;
inode numbers come from directories and are in range; an inode is allocated with a
type. -/
def istep (s : ISys) : ICall → Outcome ISys
  | .iget inum =>
    if inum < sb.ninodes then run (Table.iget s.tab inum) fun r => { s with tab := r.2 } else .blocked
  | .idup e =>
    if 0 < (s.tab e).ref then .ok (s.set s.disk e (s.tab e).dup) else .blocked
  | .ilock e => if 0 < (s.tab e).ref then run (ilock sb s e) id else .blocked
  | .iput e => if 0 < (s.tab e).ref then run (iput sb s e) id else .blocked
  | .writei e src off n =>
    if 0 < (s.tab e).ref ∧ (s.tab e).valid = true then
      run (writei sb s.disk (s.inode e) src off n) fun r => s.set r.2.1 e ((s.tab e).cache r.2.2.di)
    else .blocked
  | .itrunc e =>
    if 0 < (s.tab e).ref ∧ (s.tab e).valid = true then
      run (itrunc sb s.disk (s.inode e)) fun r => s.set r.1 e ((s.tab e).cache r.2.di)
    else .blocked
  | .ialloc type =>
    if type ≠ 0 then
      run (do
        let (inum, d) ← ialloc sb s.disk type
        let (_, tab) ← Table.iget s.tab inum
        return { disk := d, tab := tab }) id
    else .blocked
  | .update e major minor nlink =>
    if 0 < (s.tab e).ref ∧ (s.tab e).valid = true then
      let di := (s.tab e).mem.setFields major minor nlink
      .ok (s.set (iupdate sb s.disk { s.inode e with di := di }) e ((s.tab e).cache di))
    else .blocked

/-! ### The invariant -/

variable {sb} {s s' : ISys} {e : Fin NINODE}

/-- Slot `t` of the allocated inode `i` on disk refers to block `b`. -/
def Refers (sb : SuperBlock) (d : Disk) (i : Nat) (t : Slot) (b : Nat) : Prop :=
  Uses sb d (dinode sb d) All i t b

/-- From one disk to the other, slots are only emptied or only filled. -/
def OneWay (sb : SuperBlock) (d d' : Disk) : Prop :=
  (∀ i t b, Refers sb d' i t b → Refers sb d i t b) ∨ ∀ i t b, Refers sb d i t b → Refers sb d' i t b

theorem OneWay.refl (sb : SuperBlock) (d : Disk) : OneWay sb d d := .inl fun _ _ _ hu => hu

/-- What holds between two calls. -/
structure TableInv (sb : SuperBlock) (s : ISys) : Prop where
  layout : sb.Layout
  owned : Owned sb s.disk (dinode sb s.disk) All fun _ => False
  uniq : s.tab.Uniq
  lt : ∀ e, 0 < (s.tab e).ref → (s.tab e).inum < sb.ninodes
  cur : ∀ e, 0 < (s.tab e).ref → (s.tab e).valid = true →
    (s.tab e).mem = dinode sb s.disk (s.tab e).inum ∧ (s.tab e).mem.type ≠ 0

/-- The messages of the panics that can happen: something has run out, or a caller
locks an inode that is not allocated. -/
def Exhausted (msg : String) : Prop :=
  msg = "balloc: out of blocks" ∨ msg = "ialloc: no inodes" ∨ msg = "iget: no inodes" ∨ msg = "ilock: no type"

/-- The outcome is a state in `I`, or a panic in `E`, or nothing. -/
def Keeps {σ : Type} (E : String → Prop) (I : σ → Prop) : Outcome σ → Prop
  | .ok s => I s
  | .blocked => True
  | .panic msg => E msg

variable {σ : Type} {E : String → Prop} {I : σ → Prop}

theorem run_keeps {α : Type} {r : Except String α} {Q : α → Prop}
    {k : α → σ} (h : Safe E r Q) (hk : ∀ a, Q a → I (k a)) : Keeps E I (run r k) := by
  rcases r with msg | a
  · exact h
  · exact hk a h

theorem keeps_guard {c : Prop} [Decidable c] {o : Outcome σ}
    (h : c → Keeps E I o) : Keeps E I (if c then o else .blocked) := by
  by_cases hc : c
  · rw [if_pos hc]
    exact h hc
  · rw [if_neg hc]
    trivial

theorem TableInv.isOpen (h : TableInv sb s) (href : 0 < (s.tab e).ref) (hv : (s.tab e).valid = true) :
    Open sb (dinode sb s.disk) (s.inode e) :=
  ⟨h.lt e href, (h.cur e href hv).2, (h.cur e href hv).1.symm⟩

variable {d : Disk}

/-- A call changes the disk and the entry it works on. -/
theorem TableInv.modify (h : TableInv sb s) (href : 0 < (s.tab e).ref) {t : Entry DInode}
    (hin : t.inum = (s.tab e).inum) (howned : Owned sb d (dinode sb d) All fun _ => False)
    (hdin : ∀ i, i < sb.ninodes → i ≠ (s.tab e).inum → dinode sb d i = dinode sb s.disk i)
    (hmem : t.valid = true → t.mem = dinode sb d (s.tab e).inum ∧ t.mem.type ≠ 0) :
    TableInv sb (s.set d e t) := by
  have hsame : ∀ e', ((s.set d e t).tab e').inum = (s.tab e').inum := by
    intro e'
    rcases eq_or_ne e' e with rfl | he
    · rw [ISys.set_self, hin]
    · rw [ISys.set_of_ne s d t he]
  have hpos : ∀ e', 0 < ((s.set d e t).tab e').ref → 0 < (s.tab e').ref := by
    intro e' h'
    rcases eq_or_ne e' e with rfl | he
    · exact href
    · rw [ISys.set_of_ne s d t he] at h'
      exact h'
  refine ⟨h.layout, howned, ?_, ?_, ?_⟩
  · intro e₁ e₂ h₁ h₂ h₁₂
    rw [hsame, hsame] at h₁₂
    exact h.uniq e₁ e₂ (hpos e₁ h₁) (hpos e₂ h₂) h₁₂
  · intro e' h'
    rw [hsame]
    exact h.lt e' (hpos e' h')
  · intro e' h' hv
    rw [hsame]
    rcases eq_or_ne e' e with rfl | he
    · rw [ISys.set_self] at hv ⊢
      exact hmem hv
    rw [ISys.set_of_ne s d t he] at h' hv ⊢
    -- another entry is about another inode
    have hne : (s.tab e').inum ≠ (s.tab e).inum := fun hc => he (h.uniq e' e h' href hc)
    show (s.tab e').mem = dinode sb d (s.tab e').inum ∧ _
    rw [hdin _ (h.lt e' h') hne]
    exact h.cur e' h' hv

/-- A call changes its inode, in memory and on disk. -/
theorem TableInv.cache (h : TableInv sb s) (href : 0 < (s.tab e).ref) {di : DInode}
    (howned : Owned sb d (dinode sb d) All fun _ => False)
    (hdin : ∀ i, i < sb.ninodes → dinode sb d i = withInode (dinode sb s.disk) ⟨(s.tab e).inum, di⟩ i)
    (hty : di.type ≠ 0) : TableInv sb (s.set d e ((s.tab e).cache di)) := by
  refine h.modify href rfl howned (fun i hi hne => ?_) fun _ => ⟨?_, hty⟩
  · rw [hdin i hi, withInode_apply, if_neg hne]
  · rw [hdin _ (h.lt e href), withInode_apply, if_pos rfl]
    rfl

variable {inum b i : Nat}

/-- An entry goes to an inode that has none. -/
theorem TableInv.recycle (h : TableInv sb s) (hlt : inum < sb.ninodes)
    (huniq : Table.Uniq (update s.tab e ((s.tab e).recycle inum))) :
    TableInv sb (s.set s.disk e ((s.tab e).recycle inum)) := by
  refine ⟨h.layout, h.owned, huniq, ?_, ?_⟩
  · intro e' h'
    rcases eq_or_ne e' e with rfl | he
    · rw [ISys.set_self]
      exact hlt
    · rw [ISys.set_of_ne s _ _ he] at h' ⊢
      exact h.lt e' h'
  · intro e' h' hv
    rcases eq_or_ne e' e with rfl | he
    · rw [ISys.set_self] at hv
      cases hv
    · rw [ISys.set_of_ne s _ _ he] at h' hv ⊢
      exact h.cur e' h' hv

theorem TableInv.got (h : TableInv sb s) {t : Table DInode} (hlt : inum < sb.ninodes)
    (hg : s.tab.Got inum e t) : TableInv sb { s with tab := t } := by
  have huniq := hg.uniq h.uniq
  cases hg with
  | hit href hinum => exact h.modify href rfl h.owned (fun _ _ _ => rfl) fun hv => h.cur e href hv
  | recycled href hmiss => exact h.recycle hlt huniq

/-! ### The calls keep the invariant -/

theorem ilock_spec (h : TableInv sb s) (href : 0 < (s.tab e).ref) :
    Safe Exhausted (ilock sb s e) fun s' => TableInv sb s' ∧ s'.disk = s.disk := by
  unfold ilock
  rw [if_neg (not_lt.mpr href)]
  by_cases hv : (s.tab e).valid = true
  · rw [if_pos hv]
    exact ok ⟨h, rfl⟩
  rw [if_neg hv]
  by_cases hty : (dinode sb s.disk (s.tab e).inum).type = 0
  · rw [if_pos hty]
    exact error (.inr (.inr (.inr rfl)))
  · rw [if_neg hty]
    exact ok ⟨h.modify href rfl h.owned (fun _ _ _ => rfl) fun _ => ⟨rfl, hty⟩, rfl⟩

variable {K : Nat → Prop} {ip : Inode} {r : Disk × Inode}

/-- After `itrunc` what is owned can be read off the disk. -/
theorem Truncated.sync (hl : sb.Layout)
    (h : Truncated sb d (dinode sb d) K ip r) : Owned sb r.1 (dinode sb r.1) All K := by
  refine h.owned.rewrite hl (fun _ _ => rfl) fun i hi => ?_
  rw [h.disk i hi, h.inode, withInode_apply]
  exact ⟨rfl, rfl⟩

variable {t : Slot}

/-- After `itrunc` the inode refers to nothing, and others to what they did before. -/
theorem Truncated.uses
    (hown : Owned sb d (dinode sb d) All K) (h : Truncated sb d (dinode sb d) K ip r) {j : Nat}
    (hu : Refers sb r.1 j t b) : j ≠ ip.inum ∧ Refers sb d j t b := by
  obtain ⟨hj, hty, hv, -, hval, h0⟩ := hu
  rw [h.disk j hj] at hty hval
  by_cases hji : j = ip.inum
  · rw [if_pos hji, Slot.val_null rfl] at hval
    exact absurd hval.symm h0
  rw [if_neg hji] at hty hval
  have hsame : t.val r.1 (dinode sb d j) = t.val d (dinode sb d j) :=
    Slot.val_congr (fun hi => h.high _ (hown.data j .indirect _ ⟨hj, hty, trivial, trivial, rfl, hi⟩).1) t
  exact ⟨hji, hj, hty, hv, trivial, hsame.symm.trans hval, h0⟩

/-- The blocks of the inode are free after `itrunc`. -/
theorem Truncated.bit (hl : sb.Layout)
    (hown : Owned sb d (dinode sb d) All fun _ => False) (h : Truncated sb d (dinode sb d) (fun _ => False) ip r)
    (hu : Refers sb d ip.inum t b) : bitAt sb r.1 b = false := by
  have hb := hown.data _ _ _ hu
  by_contra hbit
  rw [Bool.not_eq_false] at hbit
  rcases ((h.sync hl).marked b hb.1 hb.2).mp hbit with ⟨j, t', hu'⟩ | hk
  · -- another inode used the block before
    obtain ⟨hj, hold⟩ := h.uses hown hu'
    exact hj (hown.inj _ _ _ _ b hold hu).1
  · exact hk

/-- What the free path of `iput` leaves behind. -/
structure IFreed (sb : SuperBlock) (s : ISys) (e : Fin NINODE) (s' : ISys) : Prop where
  inv : TableInv sb s'
  entry : (s'.tab e).ref = (s.tab e).ref ∧ (s'.tab e).inum = (s.tab e).inum
  gone : (dinode sb s'.disk (s.tab e).inum).type = 0
  uses : ∀ i t b, Refers sb s'.disk i t b → Refers sb s.disk i t b
  bits : ∀ t b, Refers sb s.disk (s.tab e).inum t b → bitAt sb s'.disk b = false

/-- **The free path of `iput`.** -/
theorem ifree_spec (h : TableInv sb s) (href : 0 < (s.tab e).ref) (hv : (s.tab e).valid = true) :
    Safe (fun _ => False) (ifree sb s e) (IFreed sb s e) := by
  have hl := h.layout
  have hlt := h.lt e href
  refine (itrunc_spec hl h.owned (h.isOpen href hv)).bind ?_
  rintro ⟨d, ip⟩ ht
  obtain rfl : ip = _ := ht.inode
  have hfree : ∀ t c, ¬ Uses sb d (dinode sb d) All (s.tab e).inum t c := by
    rintro t c ⟨hi, -, -, -, hval, h0⟩
    rw [ht.disk _ hi, if_pos (show (s.tab e).inum = (s.inode e).inum from rfl), Slot.val_null rfl] at hval
    exact h0 hval.symm
  have hown := (ht.sync hl).renew hl hlt ((emptied (s.tab e).mem).setType 0) hfree (.inl rfl)
  have hdin : ∀ i, dinode sb (setDinode sb d (s.tab e).inum ((emptied (s.tab e).mem).setType 0)) i =
      if i = (s.tab e).inum then (emptied (s.tab e).mem).setType 0 else dinode sb d i := fun i =>
    dinode_setDinode sb d _ _ i
  refine ok ⟨h.modify href rfl hown ?_ ?_, ?_, ?_, ?_, ?_⟩
  · intro i hi hne
    refine (hdin i).trans ?_
    rw [if_neg hne, ht.disk i hi, if_neg (show i ≠ (s.inode e).inum from hne)]
  · intro hval
    cases hval
  · rw [ISys.set_self]
    exact ⟨rfl, rfl⟩
  · show (dinode sb (setDinode sb d (s.tab e).inum ((emptied (s.tab e).mem).setType 0)) _).type = 0
    rw [hdin, if_pos rfl]
    rfl
  · intro i t b hu
    exact (ht.uses h.owned ((uses_renew hl (ht.sync hl) hlt _ hfree (.inl rfl) i t b).mp hu)).2
  · intro t b hu
    have hb := h.owned.data _ _ _ hu
    have hbit := ht.bit hl h.owned hu
    rw [← hbit]
    exact bitAt_congr (fun y _ => setDinode_high hl hlt _ (Nat.le_add_left _ _)) hb.2

/-- **`iput`**: a reference less, and either the disk as it was or the inode freed with
all its blocks. -/
theorem iput_spec (h : TableInv sb s) (href : 0 < (s.tab e).ref) :
    Safe (fun _ => False) (iput sb s e) fun s' => TableInv sb s' ∧
      (∀ i t b, Refers sb s'.disk i t b → Refers sb s.disk i t b) ∧
      (s'.disk = s.disk ∨ ∀ t b, Refers sb s.disk (s.tab e).inum t b → bitAt sb s'.disk b = false) := by
  have hdrop : ∀ s₁ : ISys, TableInv sb s₁ → 0 < (s₁.tab e).ref →
      TableInv sb (s₁.set s₁.disk e (s₁.tab e).drop) := fun s₁ h₁ href₁ =>
    h₁.modify href₁ rfl h₁.owned (fun _ _ _ => rfl) fun hv => h₁.cur e href₁ hv
  unfold iput
  by_cases hfree : (s.tab e).ref = 1 ∧ (s.tab e).valid = true ∧ (s.tab e).mem.nlink = 0
  · rw [if_pos hfree]
    refine (ifree_spec h href hfree.2.1).bind fun s₁ hs₁ => ?_
    have href₁ : 0 < (s₁.tab e).ref := by
      rw [hs₁.entry.1]
      exact href
    exact ok ⟨hdrop s₁ hs₁.inv href₁, hs₁.uses, .inr hs₁.bits⟩
  · rw [if_neg hfree]
    exact ok ⟨hdrop s h href, fun _ _ _ hu => hu, .inl rfl⟩

theorem freeInode_spec (h : freeInode sb d = some i) : i < sb.ninodes ∧ (dinode sb d i).type = 0 := by
  refine ⟨?_, by simpa using find?_some h⟩
  exact mem_range.mp (mem_of_mem_drop (mem_of_find?_eq_some h))

section

variable (h : TableInv sb s)

include h

/-- Marking a free inode as allocated. -/
theorem TableInv.mark (hi : i < sb.ninodes) (hfree : (dinode sb s.disk i).type = 0) (type : Int16) :
    TableInv sb { s with disk := setDinode sb s.disk i (DInode.zero.setType type) } := by
  have hdin := fun j => dinode_setDinode sb s.disk i (DInode.zero.setType type) j
  refine ⟨h.layout, h.owned.renew h.layout hi _ ?_ (.inr rfl), h.uniq, h.lt, fun e href hv => ?_⟩
  · rintro t c ⟨-, hty, -⟩
    exact hty hfree
  -- a valid entry is about an allocated inode
  obtain ⟨hmem, hty⟩ := h.cur e href hv
  have hne : (s.tab e).inum ≠ i := by
    intro hc
    rw [hmem, hc] at hty
    exact hty hfree
  refine ⟨?_, hty⟩
  rw [hdin, if_neg hne, hmem]

theorem iget_keeps (hi : i < sb.ninodes) :
    Safe Exhausted (Table.iget s.tab i) fun r => TableInv sb { s with tab := r.2 } :=
  ((Table.iget_spec s.tab i).mono fun _ hr => h.got hi hr).weaken fun _ hm => .inr (.inr (.inl hm))

theorem ialloc_spec (type : Int16) :
    Safe Exhausted (ialloc sb s.disk type) fun r =>
      r.1 < sb.ninodes ∧ TableInv sb { s with disk := r.2 } ∧
        ∀ i t b, Refers sb r.2 i t b → Refers sb s.disk i t b := by
  unfold ialloc
  rcases hi : freeInode sb s.disk with - | i
  · exact error (.inr (.inl rfl))
  obtain ⟨hlt, hfree⟩ := freeInode_spec hi
  refine ok ⟨hlt, h.mark hlt hfree type, fun j t b hu => ?_⟩
  refine (uses_renew h.layout h.owned hlt _ ?_ (.inr rfl) j t b).mp hu
  rintro t c ⟨-, hty, -⟩
  exact hty hfree

/-- **Every call keeps the invariant**, and panics only when something has run out. -/
theorem istep_keeps (c : ICall) :
    Keeps Exhausted (fun s' => TableInv sb s' ∧ OneWay sb s.disk s'.disk) (istep sb s c) := by
  have hl := h.layout
  have hrefl := OneWay.refl sb s.disk
  cases c with
  | iget inum =>
    exact keeps_guard fun hi => run_keeps (iget_keeps h hi) fun _ hr => ⟨hr, hrefl⟩
  | idup e =>
    rw [istep]
    exact keeps_guard fun href =>
      ⟨h.modify href rfl h.owned (fun _ _ _ => rfl) fun hv => h.cur e href hv, hrefl⟩
  | ilock e =>
    refine keeps_guard fun href => run_keeps (ilock_spec h href) fun s' hs => ⟨hs.1, ?_⟩
    rw [show (id s').disk = s.disk from hs.2]
    exact hrefl
  | iput e =>
    refine keeps_guard fun href => ?_
    exact run_keeps ((iput_spec h href).weaken fun _ hm => hm.elim) fun _ hs => ⟨hs.1, .inl hs.2.1⟩
  | writei e src off n =>
    refine keeps_guard fun ⟨href, hv⟩ => ?_
    have ho := h.isOpen href hv
    refine run_keeps ((writei_owned hl h.owned ho src off n).weaken fun _ hm => .inl hm) ?_
    rintro ⟨ret, d, ⟨inum, di⟩⟩ hset
    obtain rfl : inum = (s.tab e).inum := hset.inum
    exact ⟨h.cache href hset.owned hset.disk (hset.type.trans_ne ho.type), .inr hset.kept⟩
  | itrunc e =>
    refine keeps_guard fun ⟨href, hv⟩ => ?_
    have ho := h.isOpen href hv
    refine run_keeps ((itrunc_spec hl h.owned ho).weaken fun _ hm => hm.elim) ?_
    rintro ⟨d, ip⟩ hr
    obtain rfl : ip = _ := hr.inode
    refine ⟨h.cache href (hr.sync hl) (fun i hi => ?_) ho.type, .inl fun i t b hu => (hr.uses h.owned hu).2⟩
    rw [hr.disk i hi, withInode_apply]
    rfl
  | ialloc type =>
    refine keeps_guard fun _ => run_keeps
      ?_ fun _ hs => hs
    refine (ialloc_spec h type).bind ?_
    rintro ⟨inum, d⟩ ⟨hlt, hd, huses⟩
    exact (iget_keeps hd hlt).bind fun r hr => ok ⟨hr, .inl huses⟩
  | update e major minor nlink =>
    refine keeps_guard fun ⟨href, hv⟩ => ?_
    have ho := h.isOpen href hv
    have hset : Settled sb s.disk (fun _ => False) (s.inode e)
        (iupdate sb s.disk { s.inode e with di := (s.tab e).mem.setFields major minor nlink })
        { s.inode e with di := (s.tab e).mem.setFields major minor nlink } :=
      (Stored.refl h.owned ho).settle hl ho rfl rfl rfl
    exact ⟨h.cache href hset.owned hset.disk ho.type, .inr hset.kept⟩

theorem tableInv_run {cs : List ICall} (hr : Machine.Run (istep sb) s cs s') : TableInv sb s' := by
  refine hr.invariant (fun s c s' hs hc => ?_) h
  have hk := istep_keeps hs c
  rw [hc] at hk
  exact hk.1

end

/-- **Block ownership.**  In every state that calls on the inodes lead to, whatever
their order and arguments:

  * a data block is marked exactly when one slot of one allocated inode refers to it,
    and no block is referred to twice;
  * `balloc` does not return a block in use, and a block that the next call puts into a
    slot was free before it;
  * the next call does not panic with "freeing free block", nor in any way other than
    that blocks, inodes or table entries have run out or that a caller locks an inode
    which is not allocated;
  * when `iput` frees an inode, all blocks that the inode used are free. -/
theorem block_ownership (h : TableInv sb s) {cs : List ICall} (hr : Machine.Run (istep sb) s cs s') :
    (∀ b, sb.datastart ≤ b → b < sb.size →
      (bitAt sb s'.disk b = true ↔ ∃! u : Nat × Slot, Refers sb s'.disk u.1 u.2 b)) ∧
    (∀ i t i' t' b, Refers sb s'.disk i t b → Refers sb s'.disk i' t' b → i = i' ∧ t = t') ∧
    (∀ b d, balloc sb s'.disk = .ok (b, d) → ∀ i t, ¬ Refers sb s'.disk i t b) ∧
    (∀ c s'', istep sb s' c = .ok s'' → ∀ i t b, Refers sb s''.disk i t b → ¬ Refers sb s'.disk i t b →
      bitAt sb s'.disk b = false) ∧
    (∀ c msg, istep sb s' c = .panic msg → Exhausted msg ∧ msg ≠ "freeing free block") ∧
    (∀ e s'', istep sb s' (.iput e) = .ok s'' →
      (dinode sb s'.disk (s'.tab e).inum).type ≠ 0 → (dinode sb s''.disk (s'.tab e).inum).type = 0 →
      ∀ t b, Refers sb s'.disk (s'.tab e).inum t b → bitAt sb s''.disk b = false) := by
  have hi := tableInv_run h hr
  refine ⟨fun b hb hb' => ?_, hi.owned.inj, ?_, ?_, ?_, ?_⟩
  · rw [hi.owned.marked b hb hb']
    constructor
    · rintro (⟨i, t, hu⟩ | hk)
      · refine ⟨(i, t), hu, ?_⟩
        rintro ⟨i', t'⟩ hu'
        obtain ⟨rfl, rfl⟩ := hi.owned.inj _ _ _ _ b hu' hu
        rfl
      · exact hk.elim
    · rintro ⟨⟨i, t⟩, hu, -⟩
      exact .inl ⟨i, t, hu⟩
  · intro b d hb i t hu
    exact hi.owned.ne_of_alloc ((balloc_spec hi.layout hi.owned.reserved).of_ok hb) hu rfl
  · intro c s'' hc i t b hu hnew
    have hk := istep_keeps hi c
    rw [hc] at hk
    obtain ⟨hi', hway⟩ := hk
    rcases hway with hless | hmore
    · exact absurd (hless i t b hu) hnew
    -- a slot that referred to the block before would still do so
    have hb := hi'.owned.data i t b hu
    by_contra hbit
    rw [Bool.not_eq_false] at hbit
    rcases (hi.owned.marked b hb.1 hb.2).mp hbit with ⟨j, t', hold⟩ | hk
    · obtain ⟨rfl, rfl⟩ := hi'.owned.inj _ _ _ _ b (hmore j t' b hold) hu
      exact hnew hold
    · exact hk
  · intro c msg hc
    have hk := istep_keeps hi c
    rw [hc] at hk
    refine ⟨hk, ?_⟩
    rcases hk with rfl | rfl | rfl | rfl <;> decide
  · intro e s'' hc hold hnew t b hu
    rw [istep] at hc
    split at hc
    · rename_i href
      have hspec := iput_spec hi href
      rcases hp : iput sb s' e with msg | s₁ <;> rw [hp] at hc hspec
      · exact hspec.elim
      obtain rfl : s₁ = s'' := by simpa [run] using hc
      rcases hspec.2.2 with hd | hbits
      · rw [hd] at hnew
        exact absurd hnew hold
      · exact hbits t b hu
    · cases hc

/-- The disk with one empty file, and nothing in memory. -/
def tinySys : ISys := { disk := tinyDisk, tab := fun _ => ⟨0, 0, false, DInode.zero⟩ }

theorem tiny_tableInv : TableInv tinySb tinySys := by
  refine ⟨tiny_layout, ⟨tiny_wf.data, tiny_wf.once, fun b hb hb' => ?_, fun _ _ _ hk => hk.elim, tiny_wf.reserved⟩,
    fun _ _ h => absurd h (lt_irrefl 0), fun _ h => absurd h (lt_irrefl 0),
    fun _ h => absurd h (lt_irrefl 0)⟩
  constructor
  · intro hbit
    have hlow : 4 ≤ b := hb
    have hhigh : b < 20 := hb'
    have hclear : ∀ b, 4 ≤ b → b < 20 → bitAt tinySb tinyDisk b = false := by
      intro b _ _
      interval_cases b <;> decide
    rw [show tinySys.disk = tinyDisk from rfl, hclear b hlow hhigh] at hbit
    cases hbit
  · rintro (⟨i, t, hu⟩ | hk)
    · exact absurd hu tiny_uses
    · exact hk.elim

/-- The file is written, unlinked and dropped. -/
def tinyCalls : List ICall :=
  let e : Fin NINODE := ⟨0, NINODE_pos⟩
  [.iget 1, .ilock e, .writei e (fun k => [1, 2, 3][k]?) 0 3, .update e 0 0 0, .iput e]

theorem tinyCalls_run : ∃ s', Machine.Run (istep tinySb) tinySys tinyCalls s' := by
  have hok : Machine.passes (istep tinySb) tinySys tinyCalls (fun _ => true) = true := by
    decide
  obtain ⟨s', hrun, -⟩ := Machine.run_of_passes hok
  exact ⟨s', hrun⟩

theorem block_ownership_tiny :
    TableInv tinySb tinySys ∧ ∃ s', Machine.Run (istep tinySb) tinySys tinyCalls s' ∧
      ∀ b, tinySb.datastart ≤ b → b < tinySb.size →
        (bitAt tinySb s'.disk b = true ↔ ∃! u : Nat × Slot, Refers tinySb s'.disk u.1 u.2 b) := by
  obtain ⟨s', hr⟩ := tinyCalls_run
  exact ⟨tiny_tableInv, s', hr, (block_ownership tiny_tableInv hr).1⟩

end Fs

end Xv6
