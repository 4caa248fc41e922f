/-
Xv6/BcacheRoom.lean

How many buffers the file system needs at the same time.

`begin_op` bounds the blocks that the log pins, by LOGSIZE = NBUF.  Nothing bounds
the buffers that processes have in their hands: a process that reads a file is in
no operation, and it keeps its buffer while it waits for the disk.  With more than
NBUF processes that read different blocks, `bget` finds no buffer (`readers`).

`bget_finds_buffer` says when it does: as long as, whenever a block is not cached,
the buffers that processes refer to and the blocks in the log header are fewer
than NBUF together.
-/
import Xv6.BcacheRefine

namespace Xv6.Bcache

open Finset

section Machine

variable {P : Type} [DecidableEq P] [Fintype P] {s : Sys P} {A : Nat → Block} {pins : List Nat}

/-- The buffers that processes have, wait for, or are about to let go. -/
def busy (s : Sys P) : Finset (Fin NBUF) :=
  {i | (s.buf i).lock.isSome = true ∨ ∃ p, waits (s.th p).task i ≠ 0}

/-- The block that a step asks `bget` for. -/
def asked (s : Sys P) : Act P → Option Nat
  | .bget _ b => some b
  | .exec p =>
    match (s.th p).code with
    | .bread _ b :: _ => some b
    | _ => none
  | _ => none

/-- A block that is not cached is asked for only while the buffers of processes and the blocks
of the log are fewer than there are buffers. -/
def Room (s : Sys P) (a : Act P) : Prop :=
  ∀ b, asked s a = some b → (∀ i, ¬ Cached s i b) → (busy s).card + s.ops.log.lh.n < NBUF

instance Room.decidable (s : Sys P) (a : Act P) : Decidable (Room s a) :=
  match h : asked s a with
  | none => isTrue fun _ hb => absurd (h.symm.trans hb) nofun
  | some b =>
    decidable_of_iff ((∀ i, ¬ Cached s i b) → (busy s).card + s.ops.log.lh.n < NBUF)
      ⟨fun hr _ hb => Option.some.inj (h.symm.trans hb) ▸ hr, fun hr => hr b h⟩

/-! ### The panic -/

omit [Fintype P] in
/-- `bget` panics when the block is not cached and every buffer is referred to. -/
theorem bget_panic {p : P} {b : Nat} {msg : String} (h : bget s p b = .panic msg) :
    (∀ i ∈ s.lru, ¬ Cached s i b) ∧ ∀ i ∈ s.lru, (s.buf i).refcnt ≠ 0 := by
  rw [bget] at h
  split at h
  · cases h
  rename_i hmiss
  split at h
  · cases h
  · rename_i hfull
    refine ⟨fun i hi => by simpa using List.find?_eq_none.mp hmiss i hi, fun i hi => ?_⟩
    simpa using List.find?_eq_none.mp hfull i (List.mem_reverse.mpr hi)

/-- A step stops with "bget: no buffers" in `bget` only. -/
theorem step_no_buffers (h : LogOps.LogInv s.ops) {a : Act P} (hs : step s a = .panic "bget: no buffers") :
    ∃ p b, asked s a = some b ∧ bget s p b = .panic "bget: no buffers" := by
  have hlog : ∀ a', LogOps.step s.ops a' ≠ .panic "bget: no buffers" := fun a' hp =>
    absurd (LogOps.step_panic_tooBig h hp).1 (by decide)
  cases a with
  | ops a =>
    simp only [step] at hs
    split_ifs at hs
    rcases ho : LogOps.step s.ops a with o | - | msg <;> rw [ho] at hs
    · cases hs
    · cases hs
    · exact absurd (by rw [ho]; simpa using hs) (hlog a)
  | bget p b =>
    simp only [step] at hs
    split_ifs at hs
    exact ⟨p, b, rfl, hs⟩
  | acquire p =>
    simp only [step, acquire] at hs
    split at hs
    · split_ifs at hs
    · cases hs
  | fill p =>
    simp only [step, fill] at hs
    split at hs
    · split at hs <;> cases hs
    · cases hs
  | unref p =>
    simp only [step, unref] at hs
    split at hs <;> cases hs
  | modify p i d =>
    simp only [step] at hs
    split_ifs at hs
  | logWrite p i =>
    simp only [step] at hs
    split_ifs at hs
    rcases ho : LogOps.step s.ops (.logWrite p (s.buf i).blockno) with o | - | msg <;> rw [ho] at hs
    · cases hs
    · cases hs
    · exact absurd (by rw [ho]; simpa using hs) (hlog _)
  | brelse p i =>
    simp only [step, brelse] at hs
    split_ifs at hs
    exact absurd (Outcome.panic.inj hs) (by decide)
  | exec p =>
    simp only [step, exec] at hs
    split_ifs at hs
    split at hs
    · cases hs
    · rename_i hc
      exact ⟨p, _, by rw [asked, hc], hs⟩
    · cases hs
    · cases hs
    · rw [bwrite] at hs
      split_ifs at hs
      exact absurd (Outcome.panic.inj hs) (by decide)
    · cases hs
    · rw [brelse] at hs
      split_ifs at hs
      exact absurd (Outcome.panic.inj hs) (by decide)

/-! ### Counting -/

omit [DecidableEq P] in
/-- At most the blocks of the header are pinned. -/
theorem Inv.pins_le (h : Inv s A pins) : pins.length ≤ s.ops.log.lh.n := by
  by_cases hq : ∀ p, (s.ops.pc p).isCommitter = false
  · rw [h.commit.quiet hq]
    rfl
  obtain ⟨p, hp⟩ := not_forall.mp hq
  have hat := h.commit.busy p (by simpa using hp)
  generalize s.ops.pc p = c at hat
  generalize (s.th p).code = code at hat
  cases hat with
  | commit hp | writeLog _ _ hp | wroteLog _ _ _ hp | writeHead _ _ hp => rw [hp]; rfl
  | installed _ _ hp | erase _ hp | clearHead _ hp | finish hp => rw [hp]; exact Nat.zero_le _
  | @install tail b _ hh _ hc =>
    have hlt : tail < s.ops.log.lh.blocks.length := (List.getElem?_eq_some_iff.mp hh).1
    have hrest : (s.ops.log.lh.blocks.drop (tail + 1)).length + 1 ≤ s.ops.log.lh.n := by
      rw [List.length_drop, LogHeader.n]
      omega
    cases hc with
    | start hp | gotLog hp | gotHome hp | copied hp | written hp => rw [hp]; exact hrest
    | unpinned hp | released hp | done hp => rw [hp]; exact Nat.le_of_succ_le hrest

omit [DecidableEq P] in
/-- A buffer with references is in the hands of a process, or pinned. -/
theorem Refs.busy_or_pinned (h : Refs s pins) {i : Fin NBUF} (hi : (s.buf i).refcnt ≠ 0) :
    i ∈ busy s ∨ (s.buf i).dev = ROOTDEV ∧ (s.buf i).blockno ∈ pins := by
  by_contra hn
  obtain ⟨hbusy, hpin⟩ := not_or.mp hn
  have hnone : (s.buf i).lock.isSome = false ∧ ∀ p, waits (s.th p).task i = 0 := by
    simpa [busy] using hbusy
  refine hi ?_
  rw [h.count i, lockRef, pinRef, if_neg hpin, sum_eq_zero fun p _ => hnone.2 p, hnone.1]
  rfl

omit [DecidableEq P] in
/-- **All buffers have references only if processes and the log use that many.** -/
theorem Inv.full (h : Inv s A pins) (hfull : ∀ i, (s.buf i).refcnt ≠ 0) : NBUF ≤ (busy s).card + s.ops.log.lh.n := by
  classical
  -- the pinned buffers, one for each pinned block at most
  let pinned : Finset (Fin NBUF) := {i | (s.buf i).dev = ROOTDEV ∧ (s.buf i).blockno ∈ pins}
  have hpinned : pinned.card ≤ pins.length := by
    refine le_trans ?_ pins.toFinset_card_le
    refine card_le_card_of_injOn (fun i => (s.buf i).blockno) (fun i hi => ?_) fun i hi j hj hij => ?_
    · have hi' : (s.buf i).dev = ROOTDEV ∧ (s.buf i).blockno ∈ pins := by simpa [pinned] using hi
      simpa using hi'.2
    · have hi' : (s.buf i).dev = ROOTDEV ∧ (s.buf i).blockno ∈ pins := by simpa [pinned] using hi
      have hj' : (s.buf j).dev = ROOTDEV ∧ (s.buf j).blockno ∈ pins := by simpa [pinned] using hj
      exact h.refs.uniq i j _ ⟨hi'.1, rfl⟩ ⟨hj'.1, hij.symm⟩
  have hcover : (univ : Finset (Fin NBUF)) ⊆ busy s ∪ pinned := by
    intro i _
    rcases h.refs.busy_or_pinned (hfull i) with hi | hi
    · exact mem_union_left _ hi
    · exact mem_union_right _ (by simpa [pinned] using hi)
  calc NBUF = (univ : Finset (Fin NBUF)).card := (card_fin NBUF).symm
    _ ≤ (busy s ∪ pinned).card := card_le_card hcover
    _ ≤ (busy s).card + pinned.card := card_union_le _ _
    _ ≤ (busy s).card + s.ops.log.lh.n := Nat.add_le_add_left (hpinned.trans h.pins_le) _

/-- **When `bget` finds a buffer.**  For any number of processes and any interleaving in which, whenever
a block is asked for that is not cached, the buffers of processes and the blocks of the log are fewer
than NBUF: `bget` does not run out of buffers. -/
theorem bget_finds_buffer {s₀ : Sys P} (h₀ : Start s₀) {as : List (Act P)} (h : Machine.Along step Room s₀ as) :
    Machine.outcome step s₀ as ≠ .panic "bget: no buffers" := by
  refine Machine.Along.outcome_ne_panic (I := fun s => ∃ A pins, Inv s A pins) ?_ ?_ h ⟨_, _, h₀.inv⟩
  · rintro s a s' ⟨A, pins, hi⟩ - hs
    obtain ⟨A', pins', hi', -⟩ := hi.step (bstep_of_step hs)
    exact ⟨A', pins', hi'⟩
  · rintro s a ⟨A, pins, hi⟩ hroom hs
    obtain ⟨p, b, hask, hb⟩ := step_no_buffers hi.log hs
    obtain ⟨hmiss, hfull⟩ := bget_panic hb
    have hle := hi.full fun i => hfull i (hi.refs.listed i)
    have hlt := hroom b hask fun i => hmiss i (hi.refs.listed i)
    omega

end Machine

/-- The schedule of `storeThenRead` keeps to the condition. -/
theorem bget_finds_buffer_two : Machine.outcome step (boot 2 30 fun _ => Bytes.zero)
    (storeThenRead (Bytes.ofFn fun _ => 7)) ≠ .panic "bget: no buffers" :=
  bget_finds_buffer (start_boot 2 30 fun _ => Bytes.zero) (by decide)

/-- Maximum number of processes. -/
def NPROC : Nat := 64

/-- NBUF + 1 processes read one block each, all different, and the disk has not answered yet. -/
def readers : List (Act (Fin NPROC)) :=
  (List.range (NBUF + 1)).map fun i => .bget ⟨i % NPROC, Nat.mod_lt _ (by decide)⟩ (100 + i)

/-- The last of them finds no buffer. -/
theorem readers_panic :
    Machine.outcome step (boot 2 LOGSIZE fun _ => Bytes.zero) readers = .panic "bget: no buffers" := by
  rfl

end Xv6.Bcache
