/-
Xv6/Bio.lean

The list of buffers of kernel/bio.c, with its pointers.

Bcache.lean keeps the most-recently-used list as a list.  Here it is what bio.c
has: `next` and `prev` pointers of NBUF buffers and of `bcache.head`, to which
`brelse` assigns six times.  A step is one critical section of `bcache.lock`, or
one acquisition or release of a buffer's sleep lock; callers interleave in any
order, with any devices and blocks.

Callers keep to the rules of the interface: who calls `brelse` has the buffer, and
`bunpin` is called by who has the buffer and undoes a `bpin`.  `pins` counts those.
`released` is the time at which `brelse` last brought the count of a buffer to
zero, by a clock that ticks then; it is 0 if that never was.
-/
import Xv6.Lib.Dlist
import Xv6.Lib.Machine
import Xv6.Param

namespace Xv6.Bio

open Dlist (Links Ring Path walk)
open Function List

/-! ### State -/

/-- `struct buf`, without its data and its links. -/
structure Buf (P : Type) where
  valid : Bool
  dev : UInt32
  blockno : UInt32
  /-- The holder of the sleep lock. -/
  lock : Option P
  refcnt : UInt32

/-- Where a caller is. -/
inductive Pc
  | idle
  /-- In `bget`, before `acquiresleep`. -/
  | lock (i : Fin NBUF)
  /-- In `brelse`, after `releasesleep`. -/
  | unref (i : Fin NBUF)
  deriving DecidableEq

/-- The buffers and their callers. -/
structure Sys (P : Type) where
  buf : Fin NBUF → Buf P
  links : Links (Fin NBUF)
  pc : P → Pc
  /-- The calls of `bpin` that were not undone. -/
  pins : Fin NBUF → Nat
  clock : Nat
  released : Fin NBUF → Nat

section Machine

variable {P : Type} [DecidableEq P]

namespace Sys

variable (s : Sys P)

@[simps] def setBuf (i : Fin NBUF) (b : Buf P) : Sys P := { s with buf := update s.buf i b }

@[simps] def setPc (p : P) (pc : Pc) : Sys P := { s with pc := update s.pc p pc }

@[simps] def setPins (i : Fin NBUF) (n : Nat) : Sys P := { s with pins := update s.pins i n }

/-- A buffer without references goes to the front of the list. -/
@[simps] def toFront (i : Fin NBUF) : Sys P :=
  { s with
    links := (s.links.drop i).push i
    clock := s.clock + 1
    released := update s.released i (s.clock + 1) }

end Sys

namespace Buf

@[simps] def setRef (b : Buf P) (n : UInt32) : Buf P := { b with refcnt := n }

@[simps] def setLock (b : Buf P) (o : Option P) : Buf P := { b with lock := o }

/-- The buffer given to another block. -/
@[simps] def recycle (b : Buf P) (dev blockno : UInt32) : Buf P :=
  { b with dev := dev, blockno := blockno, valid := false, refcnt := 1 }

end Buf

/-- The buffer caches the block. -/
def Caches (b : Buf P) (dev blockno : UInt32) : Prop := b.dev = dev ∧ b.blockno = blockno

instance (b : Buf P) (dev blockno : UInt32) : Decidable (Caches b dev blockno) :=
  inferInstanceAs (Decidable (_ ∧ _))

/-! ### Calls -/

/-- The loop of `binit`, on a zeroed `bcache`. -/
def binit : Sys P where
  buf := fun _ => { valid := false, dev := 0, blockno := 0, lock := none, refcnt := 0 }
  links := (finRange NBUF).foldl Links.push .empty
  pc := fun _ => .idle
  pins := fun _ => 0
  clock := 0
  released := fun _ => 0

/-- The critical section of `bget`. -/
def bget (s : Sys P) (p : P) (dev blockno : UInt32) : Outcome (Sys P) :=
  -- Is the block already cached?
  match walk s.links.next (fun i => Caches (s.buf i) dev blockno) NBUF (s.links.next none) with
  | some i => .ok ((s.setBuf i ((s.buf i).setRef ((s.buf i).refcnt + 1))).setPc p (.lock i))
  | none =>
    -- Recycle the least recently used (LRU) unused buffer.
    match walk s.links.prev (fun i => (s.buf i).refcnt = 0) NBUF (s.links.prev none) with
    | some i => .ok ((s.setBuf i ((s.buf i).recycle dev blockno)).setPc p (.lock i))
    | none => .panic "bget: no buffers"

/-- The critical section of `brelse`. -/
def unref (s : Sys P) (p : P) (i : Fin NBUF) : Sys P :=
  let refcnt := (s.buf i).refcnt - 1
  let s := (s.setBuf i ((s.buf i).setRef refcnt)).setPc p .idle
  if refcnt = 0 then s.toFront i else s

/-- What callers do. -/
inductive Act (P : Type)
  | bget (p : P) (dev blockno : UInt32)
  | acquire (p : P)
  | brelse (p : P) (i : Fin NBUF)
  | unref (p : P)
  | bpin (i : Fin NBUF)
  | bunpin (p : P) (i : Fin NBUF)

def step : Machine (Sys P) (Act P)
  | s, .bget p dev blockno => if s.pc p = .idle ∧ dev ≠ 0 then bget s p dev blockno else .blocked
  | s, .acquire p =>
    match s.pc p with
    | .lock i =>
      if (s.buf i).lock = none then .ok ((s.setBuf i ((s.buf i).setLock (some p))).setPc p .idle)
      else .blocked
    | _ => .blocked
  | s, .brelse p i =>
    if s.pc p = .idle then
      if (s.buf i).lock = some p then .ok ((s.setBuf i ((s.buf i).setLock none)).setPc p (.unref i))
      else .panic "brelse"
    else .blocked
  | s, .unref p =>
    match s.pc p with
    | .unref i => .ok (unref s p i)
    | _ => .blocked
  | s, .bpin i =>
    .ok ((s.setBuf i ((s.buf i).setRef ((s.buf i).refcnt + 1))).setPins i (s.pins i + 1))
  | s, .bunpin p i =>
    if s.pc p = .idle ∧ (s.buf i).lock = some p ∧ 0 < s.pins i then
      .ok ((s.setBuf i ((s.buf i).setRef ((s.buf i).refcnt - 1))).setPins i (s.pins i - 1))
    else .blocked

end Machine

/-! ### The invariant -/

section Invariant

variable {P : Type} {s s' : Sys P} {p : P} {i j : Fin NBUF} {l : List (Fin NBUF)}

/-- The call in which a caller is counts as a reference to the buffer. -/
def Pc.refs (i : Fin NBUF) : Pc → Nat
  | .idle => 0
  | .lock j | .unref j => if j = i then 1 else 0

/-- Who has the buffer has a reference to it. -/
def Buf.refs (b : Buf P) : Nat := if b.lock = none then 0 else 1

/-- The calls of `bget` for a buffer that no `brelse` has ended. -/
def outstanding [Fintype P] (s : Sys P) (i : Fin NBUF) : Nat := (∑ p, (s.pc p).refs i) + (s.buf i).refs

/-- **The buffers are a ring, the most recently released first.** -/
structure Listed (s : Sys P) (l : List (Fin NBUF)) : Prop where
  ring : Ring s.links l
  all : ∀ i, i ∈ l
  sorted : l.Pairwise fun i j => s.released j ≤ s.released i
  clock : ∀ i, s.released i ≤ s.clock

/-- The invariant. -/
structure Inv [Fintype P] (s : Sys P) (l : List (Fin NBUF)) : Prop where
  listed : Listed s l
  uniq : ∀ i j, (s.buf i).dev ≠ 0 → Caches (s.buf j) (s.buf i).dev (s.buf i).blockno → j = i
  refcnt : ∀ i, (s.buf i).refcnt = .ofNat (outstanding s i + s.pins i)

theorem Listed.length (h : Listed s l) : l.length = NBUF := by
  have hperm : l.Perm (finRange NBUF) :=
    (perm_ext_iff_of_nodup h.ring.nodup (nodup_finRange _)).mpr fun i => by
      simp [h.all i]
  rw [hperm.length_eq, length_finRange]

/-- The first element of a sorted list with a property is the least one. -/
theorem find_least {α : Type} {r : α → Nat} {q : α → Bool} {l : List α} {a b : α}
    (hl : l.Pairwise fun a b => r a ≤ r b) (hfind : l.find? q = some a) (hb : b ∈ l) (hq : q b = true) :
    r a ≤ r b := by
  obtain ⟨-, l₁, l₂, rfl, hnone⟩ := find?_eq_some_iff_append.mp hfind
  rcases mem_append.mp hb with hb | hb
  · exact absurd hq (by simpa using hnone b hb)
  · rcases mem_cons.mp hb with rfl | hb
    · exact le_rfl
    · exact rel_of_pairwise_cons (pairwise_append.mp hl).2.1 hb

variable [DecidableEq P] {dev blockno : UInt32}

/-- **What `bget` does**: the block is found, or the least recently released buffer is recycled. -/
theorem bget_cases (h : Listed s l) (hs : bget s p dev blockno = .ok s') :
    (∃ i, Caches (s.buf i) dev blockno ∧
      s' = (s.setBuf i ((s.buf i).setRef ((s.buf i).refcnt + 1))).setPc p (.lock i)) ∨
    ∃ i, (∀ j, ¬ Caches (s.buf j) dev blockno) ∧ (s.buf i).refcnt = 0 ∧
      (∀ j, (s.buf j).refcnt = 0 → s.released i ≤ s.released j) ∧
      s' = (s.setBuf i ((s.buf i).recycle dev blockno)).setPc p (.lock i) := by
  rw [bget, h.ring.walk_next _ h.length.le, h.ring.walk_prev _ h.length.le] at hs
  split at hs
  · rename_i i hi
    cases hs
    exact .inl ⟨i, by simpa using find?_some hi, rfl⟩
  · rename_i hmiss
    split at hs
    · rename_i i hi
      cases hs
      refine .inr ⟨i, fun j => ?_, by simpa using find?_some hi, fun j hj => ?_, rfl⟩
      · simpa using find?_eq_none.mp hmiss j (h.all j)
      · exact find_least (pairwise_reverse.mpr h.sorted) hi (by simp [h.all j]) (by simpa using hj)
    · cases hs

omit [DecidableEq P] in
/-- The list after `brelse` has brought the count of a buffer to zero. -/
theorem Listed.toFront (h : Listed s l) (i : Fin NBUF) : Listed (s.toFront i) (i :: l.erase i) := by
  have hi : i ∉ l.erase i := fun hi => (h.ring.nodup.mem_erase_iff.mp hi).1 rfl
  refine ⟨h.ring.toFront (h.all i), fun j => ?_, pairwise_cons.mpr ⟨fun j hj => ?_, ?_⟩, fun j => ?_⟩
  · by_cases hj : j = i
    · exact hj ▸ mem_cons_self
    · exact mem_cons_of_mem _ ((mem_erase_of_ne hj).mpr (h.all j))
  · have hne : j ≠ i := fun he => hi (he ▸ hj)
    simp only [Sys.toFront_released, update_self, update_of_ne hne]
    exact (h.clock j).trans (Nat.le_succ _)
  · refine (h.sorted.sublist erase_sublist).imp_of_mem fun {a b} ha hb hab => ?_
    have hne : ∀ c ∈ l.erase i, c ≠ i := fun c hc he => hi (he ▸ hc)
    simpa only [Sys.toFront_released, update_of_ne (hne a ha), update_of_ne (hne b hb)]
      using hab
  · rw [Sys.toFront_released, Sys.toFront_clock]
    by_cases hj : j = i
    · rw [hj, update_self]
    · rw [update_of_ne hj]
      exact (h.clock j).trans (Nat.le_succ _)

variable [Fintype P]

variable {b : Buf P}

omit [DecidableEq P] in
/-- Other buffers are not for the block of buffer `i`. -/
theorem Inv.other (h : Inv s l) (hdev : b.dev = (s.buf i).dev) (hbn : b.blockno = (s.buf i).blockno) :
    ∀ j, j ≠ i → b.dev ≠ 0 → ¬ Caches (s.buf j) b.dev b.blockno := by
  intro j hj hne hc
  rw [hdev] at hne
  rw [hdev, hbn] at hc
  exact hj (h.uniq i j hne hc)

/-- One buffer is replaced and one caller moves on: its reference is the difference. -/
theorem outstanding_step (s : Sys P) (p : P) (pc : Pc) (i : Fin NBUF) (b : Buf P) (j : Fin NBUF) :
    outstanding ((s.setBuf i b).setPc p pc) j + ((s.pc p).refs j + if j = i then (s.buf i).refs else 0)
      = outstanding s j + (pc.refs j + if j = i then b.refs else 0) := by
  have htrade := sum_update_trade (Pc.refs j) s.pc p pc
  show (∑ q, (update s.pc p pc q).refs j) + (update s.buf i b j).refs + _ = _
  rw [outstanding]
  rcases eq_or_ne j i with rfl | hj
  · rw [update_self, if_pos rfl, if_pos rfl]
    omega
  · rw [update_of_ne hj, if_neg hj, if_neg hj]
    omega

section

variable (h : Inv s l)

include h

omit [DecidableEq P] in
/-- **A buffer is replaced.**  It is for the same block, or for one that no other is for, and its
count goes from `n` to `m` as its references do. -/
theorem Inv.change {n m : Nat} (hlinks : s'.links = s.links)
    (htime : s'.clock = s.clock ∧ s'.released = s.released) (hbuf : s'.buf = update s.buf i b)
    (hid : ∀ j, j ≠ i → b.dev ≠ 0 → ¬ Caches (s.buf j) b.dev b.blockno)
    (hother : ∀ j, j ≠ i → outstanding s' j + s'.pins j = outstanding s j + s.pins j)
    (hself : outstanding s' i + s'.pins i + n = outstanding s i + s.pins i + m)
    (hcount : b.refcnt + .ofNat n = (s.buf i).refcnt + .ofNat m) : Inv s' l := by
  refine ⟨⟨hlinks ▸ h.listed.ring, h.listed.all, ?_, ?_⟩, fun j k hdev hc => ?_, fun j => ?_⟩
  · rw [htime.2]
    exact h.listed.sorted
  · rw [htime.1, htime.2]
    exact h.listed.clock
  · rw [hbuf] at hdev hc
    by_cases hj : j = i <;> by_cases hk : k = i
    · rw [hj, hk]
    · subst hj
      rw [update_self] at hdev hc
      rw [update_of_ne hk] at hc
      exact absurd hc (hid k hk hdev)
    · subst hk
      rw [update_of_ne hj, update_self] at hc
      rw [update_of_ne hj] at hdev
      exact absurd ⟨hc.1.symm, hc.2.symm⟩ (hid j hj (hc.1 ▸ hdev))
    · rw [update_of_ne hj] at hdev hc
      rw [update_of_ne hk] at hc
      exact h.uniq j k hdev hc
  · rw [hbuf]
    rcases eq_or_ne j i with rfl | hj
    · rw [h.refcnt j, ← UInt32.ofNat_add, ← hself, UInt32.ofNat_add] at hcount
      rw [update_self]
      exact (UInt32.add_left_inj _).mp hcount
    · rw [update_of_ne hj, h.refcnt j, hother j hj]

/-- A caller moves on and a buffer is replaced. -/
theorem Inv.move {pc : Pc} (hid : ∀ j, j ≠ i → b.dev ≠ 0 → ¬ Caches (s.buf j) b.dev b.blockno)
    (hother : ∀ j, j ≠ i → pc.refs j = (s.pc p).refs j)
    (hcount : b.refcnt + .ofNat ((s.pc p).refs i + (s.buf i).refs)
      = (s.buf i).refcnt + .ofNat (pc.refs i + b.refs)) :
    Inv ((s.setBuf i b).setPc p pc) l := by
  have hstep := outstanding_step s p pc i b
  refine h.change rfl ⟨rfl, rfl⟩ rfl hid (fun j hj => ?_) ?_ hcount
  · have hj' := hstep j
    rw [if_neg hj, if_neg hj, hother j hj] at hj'
    exact congrArg (· + s.pins j) (add_right_cancel hj')
  · have hi := hstep i
    rw [if_pos rfl, if_pos rfl] at hi
    show outstanding _ i + s.pins i + _ = _
    omega

omit [DecidableEq P] in
/-- A buffer is pinned or unpinned. -/
theorem Inv.pin {c : UInt32} {pins : Nat} (hcount : c + .ofNat (s.pins i) = (s.buf i).refcnt + .ofNat pins) :
    Inv ((s.setBuf i ((s.buf i).setRef c)).setPins i pins) l := by
  have hout : ∀ j, outstanding ((s.setBuf i ((s.buf i).setRef c)).setPins i pins) j = outstanding s j := by
    intro j
    show (∑ p, (s.pc p).refs j) + (update s.buf i ((s.buf i).setRef c) j).refs = _
    rcases eq_or_ne j i with rfl | hj
    · rw [update_self]
      rfl
    · rw [update_of_ne hj]
      rfl
  refine h.change rfl ⟨rfl, rfl⟩ rfl (h.other rfl rfl) (fun j hj => ?_) ?_ hcount
  · rw [hout, Sys.setPins_pins, update_of_ne hj]
    rfl
  · rw [hout, Sys.setPins_pins, update_self]
    omega

theorem inv_bget (hpc : s.pc p = .idle) (hs : bget s p dev blockno = .ok s') : Inv s' l := by
  rcases bget_cases h.listed hs with ⟨i, -, rfl⟩ | ⟨i, hmiss, hzero, -, rfl⟩
  · refine h.move (h.other rfl rfl) (fun j hj => ?_) ?_
    · simp [Pc.refs, hpc, hj.symm]
    · simp only [Pc.refs, hpc, if_true, Buf.setRef_refcnt, Buf.refs, Buf.setRef_lock, Nat.zero_add]
      rw [UInt32.ofNat_add, ← UInt32.add_assoc]
      rfl
  · refine h.move (fun j _ _ => hmiss j) (fun j hj => ?_) ?_
    · simp [Pc.refs, hpc, hj.symm]
    · simp only [Pc.refs, hpc, if_true, Buf.recycle_refcnt, Buf.refs, Buf.recycle_lock, Nat.zero_add, hzero]
      rw [UInt32.ofNat_add, UInt32.zero_add]
      rfl

theorem inv_unref (hpc : s.pc p = .unref i) : ∃ l', Inv (unref s p i) l' := by
  have hmove : Inv ((s.setBuf i ((s.buf i).setRef ((s.buf i).refcnt - 1))).setPc p .idle) l := by
    refine h.move (h.other rfl rfl) (fun j hj => ?_) ?_
    · simp [Pc.refs, hpc, hj.symm]
    simp only [Pc.refs, hpc, if_true, Buf.setRef_refcnt, Buf.refs, Buf.setRef_lock, Nat.zero_add]
    rw [UInt32.ofNat_add, ← UInt32.add_assoc]
    congr 1
    exact UInt32.sub_add_cancel ..
  rw [unref]
  split
  · exact ⟨_, hmove.listed.toFront i, hmove.uniq, hmove.refcnt⟩
  · exact ⟨_, hmove⟩

end

variable {a : Act P}

theorem inv_step (h : Inv s l) (hs : step s a = .ok s') : ∃ l', Inv s' l' := by
  cases a with
  | bget p dev blockno =>
    rw [step] at hs
    split at hs
    · rename_i hc
      exact ⟨l, inv_bget h hc.1 hs⟩
    · cases hs
  | acquire p =>
    rw [step] at hs
    split at hs
    · rename_i i hpc
      split at hs
      · rename_i hl
        cases hs
        refine ⟨l, h.move (h.other rfl rfl) (fun j hj => ?_) ?_⟩
        · simp [Pc.refs, hpc, hj.symm]
        · simp [Pc.refs, hpc, Buf.refs, hl]
      · cases hs
    · cases hs
  | brelse p i =>
    rw [step] at hs
    split at hs
    · rename_i hpc
      split at hs
      · rename_i hl
        cases hs
        refine ⟨l, h.move (h.other rfl rfl) (fun j hj => ?_) ?_⟩
        · simp [Pc.refs, hpc, hj.symm]
        · simp [Pc.refs, hpc, Buf.refs, hl]
      · cases hs
    · cases hs
  | unref p =>
    rw [step] at hs
    split at hs
    · rename_i i hpc
      cases hs
      exact inv_unref h hpc
    · cases hs
  | bpin i =>
    cases hs
    refine ⟨l, h.pin ?_⟩
    rw [UInt32.ofNat_add, UInt32.add_assoc, UInt32.add_comm 1]
    rfl
  | bunpin p i =>
    rw [step] at hs
    split at hs
    · rename_i hc
      cases hs
      refine ⟨l, h.pin ?_⟩
      obtain ⟨n, hn⟩ : ∃ n, s.pins i = n + 1 := ⟨s.pins i - 1, by omega⟩
      rw [hn, Nat.add_sub_cancel, UInt32.ofNat_add, UInt32.add_comm (.ofNat n), ← UInt32.add_assoc]
      congr 1
      exact UInt32.sub_add_cancel ..
    · cases hs

omit [DecidableEq P] in
theorem binit_inv : Inv (binit : Sys P) ((finRange NBUF).reverse ++ []) := by
  refine ⟨⟨?_, ?_, ?_, fun _ => le_rfl⟩, fun i j hdev => absurd rfl hdev, fun i => ?_⟩
  · exact Ring.empty.pushAll (nodup_finRange _) (by simp)
  · simp
  · exact pairwise_of_forall fun _ _ => le_rfl
  · simp [outstanding, binit, Pc.refs, Buf.refs]

theorem inv_run {as : List (Act P)} (h : Machine.Run step binit as s) : ∃ l, Inv s l :=
  h.invariant (I := fun s => ∃ l, Inv s l) (fun _ _ _ ⟨_, hi⟩ hs => inv_step hi hs) ⟨_, binit_inv⟩

/-! ### What callers rely on -/

/-- Only `bget` gives a buffer to another block, and only one without references. -/
theorem Inv.keeps (h : Inv s l) (hs : step s a = .ok s') (hi : (s.buf i).refcnt ≠ 0) :
    Caches (s'.buf i) (s.buf i).dev (s.buf i).blockno := by
  -- a buffer is replaced by one for the same block
  have hsame : ∀ (j : Fin NBUF) (b : Buf P), Caches b (s.buf j).dev (s.buf j).blockno →
      Caches (update s.buf j b i) (s.buf i).dev (s.buf i).blockno := by
    intro j b hb
    rcases eq_or_ne i j with rfl | hj
    · rwa [update_self]
    · rw [update_of_ne hj]
      exact ⟨rfl, rfl⟩
  cases a with
  | bget p dev blockno =>
    rw [step] at hs
    split at hs
    · rcases bget_cases h.listed hs with ⟨j, -, rfl⟩ | ⟨j, -, hzero, -, rfl⟩
      · exact hsame j _ ⟨rfl, rfl⟩
      have hj : i ≠ j := fun he => hi (he ▸ hzero)
      show Caches (update s.buf j _ i) _ _
      rw [update_of_ne hj]
      exact ⟨rfl, rfl⟩
    · cases hs
  | acquire | brelse =>
    rw [step] at hs
    split at hs
    · split at hs
      · cases hs
        exact hsame _ _ ⟨rfl, rfl⟩
      · cases hs
    · cases hs
  | unref p =>
    rw [step] at hs
    split at hs
    · rename_i j _
      cases hs
      have hbuf : (unref s p j).buf = update s.buf j ((s.buf j).setRef ((s.buf j).refcnt - 1)) := by
        rw [unref]
        split <;> rfl
      rw [hbuf]
      exact hsame _ _ ⟨rfl, rfl⟩
    · cases hs
  | bpin j =>
    cases hs
    exact hsame _ _ ⟨rfl, rfl⟩
  | bunpin p j =>
    rw [step] at hs
    split at hs
    · cases hs
      exact hsame _ _ ⟨rfl, rfl⟩
    · cases hs

/-- On a miss, `bget` takes the buffer that was released least recently. -/
theorem Inv.miss (h : Inv s l) (hs : step s (.bget p dev blockno) = .ok s')
    (hmiss : ∀ j, ¬ Caches (s.buf j) dev blockno) :
    ∃ i, s'.pc p = .lock i ∧ Caches (s'.buf i) dev blockno ∧ (s.buf i).refcnt = 0 ∧
      ∀ j, (s.buf j).refcnt = 0 → s.released i ≤ s.released j := by
  rw [step] at hs
  split at hs
  · rcases bget_cases h.listed hs with ⟨i, hi, -⟩ | ⟨i, -, hzero, hleast, rfl⟩
    · exact absurd hi (hmiss i)
    refine ⟨i, update_self .., ?_, hzero, hleast⟩
    show Caches (update s.buf i _ i) dev blockno
    rw [update_self]
    exact ⟨rfl, rfl⟩
  · cases hs

/-- **The buffer cache is a list in order of use.**  However callers interleave after `binit`:

· following `next` from `bcache.head` visits every buffer once, and `prev` is its inverse;

· at most one buffer is for a given block of a given device;

· the count of a buffer is the number of calls of `bget` that are outstanding plus the number of
  pins, in the arithmetic of its type;

· a buffer with a count above zero stays with its block;

· on a miss, `bget` recycles the buffer that was released to zero least recently, or never. -/
theorem lru_list {as : List (Act P)} (h : Machine.Run step binit as s) :
    (∃ l : List (Fin NBUF), l.Nodup ∧ (∀ i, i ∈ l) ∧ Path s.links.next none l none) ∧
    (∀ a, s.links.prev (s.links.next a) = a ∧ s.links.next (s.links.prev a) = a) ∧
    (∀ i j, (s.buf i).dev ≠ 0 → Caches (s.buf j) (s.buf i).dev (s.buf i).blockno → j = i) ∧
    (∀ i, (s.buf i).refcnt = .ofNat (outstanding s i + s.pins i)) ∧
    (∀ a s' i, step s a = .ok s' → (s.buf i).refcnt ≠ 0 →
      Caches (s'.buf i) (s.buf i).dev (s.buf i).blockno) ∧
    ∀ p dev blockno s', step s (.bget p dev blockno) = .ok s' → (∀ j, ¬ Caches (s.buf j) dev blockno) →
      ∃ i, s'.pc p = .lock i ∧ Caches (s'.buf i) dev blockno ∧ (s.buf i).refcnt = 0 ∧
        ∀ j, (s.buf j).refcnt = 0 → s.released i ≤ s.released j := by
  obtain ⟨l, hi⟩ := inv_run h
  have hring := hi.listed.ring
  refine ⟨⟨l, hring.nodup, hi.listed.all, hring.next⟩, fun a => ⟨?_, ?_⟩, hi.uniq, hi.refcnt,
    fun a s' i hs hn => hi.keeps hs hn, fun p dev blockno s' hs hm => hi.miss hs hm⟩
  · exact hring.prev_next fun x _ => hi.listed.all x
  · exact hring.next_prev fun x _ => hi.listed.all x

end Invariant

/-! ### A run -/

/-- The first buffer. -/
def first : Fin NBUF := ⟨0, NBUF_pos⟩

/-- One of two callers reads a block and lets the buffer go. -/
def used : List (Act (Fin 2)) := [.bget 0 1 5, .acquire 0, .brelse 0 first, .unref 0]

/-- The other caller, with another block, gets a buffer that was never used. -/
theorem lru_list_used : ∃ s s', Machine.Run step (binit : Sys (Fin 2)) used s ∧
    step s (.bget 1 1 6) = .ok s' ∧ s.released first = 1 ∧
    ∃ i, s'.pc 1 = .lock i ∧ Caches (s'.buf i) 1 6 ∧ (s.buf i).refcnt = 0 ∧
      ∀ j, (s.buf j).refcnt = 0 → s.released i ≤ s.released j := by
  have hok : Machine.passes step (binit : Sys (Fin 2)) used (fun s => s.released first = 1 ∧
      (∀ j, ¬ Caches (s.buf j) 1 6) ∧ (step s (.bget 1 1 6)).isOk = true) = true := by
    decide +kernel
  obtain ⟨s, hrun, hs⟩ := Machine.run_of_passes hok
  obtain ⟨hrel, hmiss, hnext⟩ := of_decide_eq_true hs
  rcases hone : step s (.bget 1 1 6) with s' | - | msg <;> rw [hone] at hnext
  · exact ⟨s, s', hrun, hone, hrel, (lru_list hrun).2.2.2.2.2 1 1 6 s' hone hmiss⟩
  · cases hnext
  · cases hnext

end Xv6.Bio
