/-
Xv6/BcacheInv.lean

The invariant of the buffer cache and the log.

The invariant speaks about a plain array of blocks `A`, the content that each
block has for the file system, and about the list `pins` of blocks that
`log_write` has pinned and `install_trans` has not unpinned yet.

* `Refs` — `refcnt` counts the holder of the sleep lock, the processes that wait
  for it or are about to drop their reference, and the pin;
* `Content` — a valid buffer holds the block's content; the disk holds it too,
  unless the block is pinned or its buffer was modified and not logged yet;
* `CommitInv` — how far `commit` is: which log blocks hold the content of
  their home blocks, which blocks are still pinned, and which buffers the
  committing process holds (`At`).

Almost every step changes one buffer and one process, and leaves the block
number of the buffer alone.  `Refs.edit` and `Content.edit` say once what
such a step has to preserve.
-/
import Xv6.Bcache

namespace Xv6.Bcache

open Function
open LogOps (LogSys Pc LogInv LogStep)

section Machine

variable {P : Type}

/-! ### Field lemmas -/

section Fields

variable (s : Sys P) (i : Fin NBUF) (b : Buf P)

@[simp] theorem setBuf_buf : (s.setBuf i b).buf = update s.buf i b := rfl
@[simp] theorem setBuf_th : (s.setBuf i b).th = s.th := rfl
@[simp] theorem setBuf_ops : (s.setBuf i b).ops = s.ops := rfl
@[simp] theorem setBuf_lru : (s.setBuf i b).lru = s.lru := rfl
@[simp] theorem setBuf_disk : (s.setBuf i b).disk = s.disk := rfl

variable [DecidableEq P] (p : P) (t : Thread)

@[simp] theorem setTh_buf : (s.setTh p t).buf = s.buf := rfl
@[simp] theorem setTh_th : (s.setTh p t).th = update s.th p t := rfl
@[simp] theorem setTh_ops : (s.setTh p t).ops = s.ops := rfl
@[simp] theorem setTh_lru : (s.setTh p t).lru = s.lru := rfl
@[simp] theorem setTh_disk : (s.setTh p t).disk = s.disk := rfl

end Fields

/-! ### References -/

/-- The reference of a process that waits for a buffer, or has unlocked it. -/
def waits : Task → Fin NBUF → Nat
  | .lock j _, i => if j = i then 1 else 0
  | .unref j, i => if j = i then 1 else 0
  | _, _ => 0

@[simp] theorem waits_none (i : Fin NBUF) : waits .none i = 0 := rfl

@[simp] theorem waits_fill (j : Fin NBUF) (b : Nat) (i : Fin NBUF) : waits (.fill j b) i = 0 := rfl

@[simp] theorem waits_lock (j : Fin NBUF) (b : Nat) (i : Fin NBUF) :
    waits (.lock j b) i = if j = i then 1 else 0 := rfl

@[simp] theorem waits_unref (j i : Fin NBUF) : waits (.unref j) i = if j = i then 1 else 0 := rfl

/-- The reference of the holder of the sleep lock. -/
def lockRef (b : Buf P) : Nat := if b.lock.isSome then 1 else 0

/-- The reference of the log. -/
def pinRef (pins : List Nat) (b : Buf P) : Nat :=
  if b.dev = ROOTDEV ∧ b.blockno ∈ pins then 1 else 0

/-- **A step that changes buffer `i`**, which keeps its block. -/
structure Edit (s s' : Sys P) (i : Fin NBUF) (b' : Buf P) : Prop where
  buf : s'.buf = update s.buf i b'
  dev : b'.dev = (s.buf i).dev
  no : b'.blockno = (s.buf i).blockno

section Edit

variable {s s' : Sys P} {i j : Fin NBUF} {b' : Buf P} {b : Nat}

theorem Edit.self (e : Edit s s' i b') : s'.buf i = b' := by rw [e.buf, update_self]

theorem Edit.other (e : Edit s s' i b') (hj : j ≠ i) : s'.buf j = s.buf j := by
  rw [e.buf, update_of_ne hj]

theorem Edit.cached (e : Edit s s' i b') : Cached s' j b ↔ Cached s j b := by
  unfold Cached
  rcases eq_or_ne j i with rfl | hj
  · rw [e.self, e.dev, e.no]
  · rw [e.other hj]

theorem asks_congr {p : P} (hcode : (s'.th p).code = (s.th p).code)
    (hstart : s'.ops.log.start = s.ops.log.start) (hsize : s'.ops.log.size = s.ops.log.size) :
    Asks s' p b ↔ Asks s p b := by
  unfold Asks Outside
  rw [hcode, hstart, hsize]

end Edit

/-- Who refers to a buffer. -/
structure Refs [Fintype P] (s : Sys P) (pins : List Nat) : Prop where
  listed : ∀ i, i ∈ s.lru
  uniq : ∀ i j b, Cached s i b → Cached s j b → i = j
  count : ∀ i, (s.buf i).refcnt =
    lockRef (s.buf i) + ∑ p, waits (s.th p).task i + pinRef pins (s.buf i)
  asks : ∀ p i b, (s.th p).task = .lock i b ∨ (s.th p).task = .fill i b → Cached s i b ∧ Asks s p b
  holds : ∀ p i b, (s.th p).task = .fill i b → (s.buf i).lock = some p

namespace Refs

variable [Fintype P] {s s' : Sys P} {pins pins' : List Nat} {i : Fin NBUF} {b' : Buf P} {p : P}
  {t : Thread} {b : Nat}

/-- An unreferenced buffer is unlocked, unpinned, and nobody waits for it. -/
theorem unused (h : Refs s pins) (h0 : (s.buf i).refcnt = 0) :
    (s.buf i).lock = none ∧ (∀ p, waits (s.th p).task i = 0) ∧ pinRef pins (s.buf i) = 0 := by
  have hc := h.count i
  have hl : lockRef (s.buf i) = 0 := by omega
  have hw : ∑ p, waits (s.th p).task i = 0 := by omega
  refine ⟨?_, fun p => ?_, by omega⟩
  · by_contra hne
    rw [lockRef, if_pos (Option.isSome_iff_ne_none.mpr hne)] at hl
    cases hl
  · exact (Finset.sum_eq_zero_iff.mp hw) p (Finset.mem_univ p)

/-- A buffer that some process asks for is in use. -/
theorem used_of_task (h : Refs s pins) (ht : (s.th p).task = .lock i b ∨ (s.th p).task = .fill i b) :
    (s.buf i).refcnt ≠ 0 := by
  intro h0
  obtain ⟨hl, hw, -⟩ := h.unused h0
  rcases ht with ht | ht
  · have hp := hw p
    rw [ht, waits, if_pos rfl] at hp
    cases hp
  · rw [h.holds p i b ht] at hl
    cases hl

variable [DecidableEq P]

/-- **References under a step** that changes buffer `i` and process `p`. -/
theorem edit (h : Refs s pins) (e : Edit s s' i b') (hth : s'.th = update s.th p t)
    (hstart : s'.ops.log.start = s.ops.log.start) (hsize : s'.ops.log.size = s.ops.log.size)
    (hlru : ∀ j ∈ s.lru, j ∈ s'.lru) (hlock : ∀ q, q ≠ p → (s.buf i).lock = some q → b'.lock = some q)
    (hself : b'.refcnt + (lockRef (s.buf i) + waits (s.th p).task i + pinRef pins (s.buf i)) =
      (s.buf i).refcnt + (lockRef b' + waits t.task i + pinRef pins' b'))
    (hwaits : ∀ j, j ≠ i → waits t.task j = waits (s.th p).task j)
    (hpins : ∀ j, j ≠ i → pinRef pins' (s.buf j) = pinRef pins (s.buf j))
    (hasks : ∀ j b, t.task = .lock j b ∨ t.task = .fill j b → Cached s j b ∧ Asks s' p b)
    (hholds : ∀ j b, t.task = .fill j b → (s'.buf j).lock = some p) : Refs s' pins' := by
  refine ⟨fun j => hlru j (h.listed j), fun j k b hj hk => h.uniq j k b (e.cached.mp hj) (e.cached.mp hk),
    fun j => ?_, fun q j b hq => ?_, fun q j b hq => ?_⟩
  · -- the sum over processes changes in the summand of `p` only
    have hsum := sum_update_trade (fun u : Thread => waits u.task j) s.th p t
    have hc := h.count j
    rw [hth]
    rcases eq_or_ne j i with rfl | hj
    · rw [e.self]
      omega
    · rw [e.other hj, hpins j hj]
      have hw := hwaits j hj
      omega
  · rw [e.cached]
    rcases eq_or_ne q p with rfl | hqp
    · rw [hth, update_self] at hq
      exact hasks j b hq
    have hsame : s'.th q = s.th q := by rw [hth, update_of_ne hqp]
    rw [hsame] at hq
    obtain ⟨h1, h2⟩ := h.asks q j b hq
    exact ⟨h1, (asks_congr (by rw [hsame]) hstart hsize).mpr h2⟩
  · rcases eq_or_ne q p with rfl | hqp
    · rw [hth, update_self] at hq
      exact hholds j b hq
    rw [hth, update_of_ne hqp] at hq
    have hl := h.holds q j b hq
    rcases eq_or_ne j i with rfl | hj
    · rw [e.self]
      exact hlock q hqp hl
    · rw [e.other hj]
      exact hl

/-- References under a step of a process that is not in a buffer call. -/
theorem edit_idle (h : Refs s pins) (e : Edit s s' i b') (hth : s'.th = update s.th p t)
    (hstart : s'.ops.log.start = s.ops.log.start) (hsize : s'.ops.log.size = s.ops.log.size)
    (hlru : s'.lru = s.lru) (ht : (s.th p).task = .none) (htask : t.task = .none)
    (hlock : b'.lock = (s.buf i).lock)
    (hself : b'.refcnt + pinRef pins (s.buf i) = (s.buf i).refcnt + pinRef pins' b')
    (hpins : ∀ j, j ≠ i → pinRef pins' (s.buf j) = pinRef pins (s.buf j)) : Refs s' pins' := by
  refine h.edit e hth hstart hsize (fun _ hj => by rw [hlru]; exact hj) (fun q _ hl => by rw [hlock]; exact hl)
    ?_ (fun j _ => by rw [ht, htask]) hpins ?_ ?_
  · rw [ht, htask, lockRef, lockRef, hlock]
    omega
  · rintro j c (hj | hj) <;> rw [htask] at hj <;> cases hj
  · intro j c hj
    rw [htask] at hj
    cases hj

/-- The state in which `bget` has recycled buffer `i`. -/
def recycled (s : Sys P) (p : P) (i : Fin NBUF) (b : Nat) : Sys P :=
  (s.setBuf i { s.buf i with dev := ROOTDEV, blockno := b, valid := false, refcnt := 1 }).setTask p (.lock i b)

omit [Fintype P] in
theorem recycled_other {j : Fin NBUF} (hj : j ≠ i) : (recycled s p i b).buf j = s.buf j := update_of_ne hj ..

omit [Fintype P] in
theorem recycled_self :
    (recycled s p i b).buf i = { s.buf i with dev := ROOTDEV, blockno := b, valid := false, refcnt := 1 } :=
  update_self ..

/-- **References when `bget` recycles** an unused buffer for a block that is not
cached. -/
theorem recycle (h : Refs s pins) (ht : (s.th p).task = .none) (hask : Asks s p b)
    (hmiss : ∀ j, ¬ Cached s j b) (h0 : (s.buf i).refcnt = 0) (hpin : b ∉ pins) :
    Refs (recycled s p i b) pins := by
  obtain ⟨hl, hw, hp0⟩ := h.unused h0
  have hth : (recycled s p i b).th = update s.th p ⟨.lock i b, (s.th p).code, (s.th p).reg⟩ := rfl
  have hself : Cached (recycled s p i b) i b := by
    rw [Cached, recycled_self]
    exact ⟨rfl, rfl⟩
  have hother : ∀ {j c}, j ≠ i → (Cached (recycled s p i b) j c ↔ Cached s j c) := by
    intro j c hj
    rw [Cached, recycled_other hj]
    rfl
  -- nobody else's task is about `i`
  have hfree : ∀ q j c, ((s.th q).task = .lock j c ∨ (s.th q).task = .fill j c) → j ≠ i := by
    rintro q j c hq rfl
    exact h.used_of_task hq h0
  refine ⟨h.listed, fun j k c hj hk => ?_, fun j => ?_, fun q j c hq => ?_, fun q j c hq => ?_⟩
  · by_cases hji : j = i <;> by_cases hki : k = i
    · rw [hji, hki]
    · subst hji
      have hb : c = b := hj.2.symm.trans hself.2
      exact absurd ((hother hki).mp hk) (hb ▸ hmiss k)
    · subst hki
      have hb : c = b := hk.2.symm.trans hself.2
      exact absurd ((hother hji).mp hj) (hb ▸ hmiss j)
    · exact h.uniq j k c ((hother hji).mp hj) ((hother hki).mp hk)
  · have hsum := sum_update_trade (fun u : Thread => waits u.task j) s.th p ⟨.lock i b, (s.th p).code, (s.th p).reg⟩
    have hc := h.count j
    simp only [ht, waits_none, waits_lock] at hsum
    rw [hth]
    rcases eq_or_ne j i with rfl | hji
    · have hz : ∑ q, waits (s.th q).task j = 0 := Finset.sum_eq_zero fun q _ => hw q
      have hpr : ¬ (ROOTDEV = ROOTDEV ∧ b ∈ pins) := fun hb => hpin hb.2
      simp only [if_true, hz] at hsum
      rw [recycled_self, lockRef, pinRef, hl, if_neg hpr]
      simp only [Option.isSome_none, Bool.false_eq_true, if_false]
      omega
    · rw [if_neg (Ne.symm hji)] at hsum
      rw [recycled_other hji]
      omega
  · rcases eq_or_ne q p with rfl | hqp
    · have hc : ((recycled s q i b).th q).code = (s.th q).code := by rw [hth, update_self]
      rw [hth, update_self] at hq
      simp only [Task.lock.injEq, reduceCtorEq, or_false] at hq
      obtain ⟨rfl, rfl⟩ := hq
      exact ⟨hself, (asks_congr hc rfl rfl).mpr hask⟩
    · have hsame : (recycled s p i b).th q = s.th q := by rw [hth, update_of_ne hqp]
      rw [hsame] at hq
      obtain ⟨h1, h2⟩ := h.asks q j c hq
      exact ⟨(hother (hfree q j c hq)).mpr h1, (asks_congr (congrArg Thread.code hsame) rfl rfl).mpr h2⟩
  · rcases eq_or_ne q p with rfl | hqp
    · rw [hth, update_self] at hq
      cases hq
    · rw [hth, update_of_ne hqp] at hq
      rw [recycled_other (hfree q j c (Or.inr hq))]
      exact h.holds q j c hq

end Refs

/-! ### Content -/

/-- Process `p` may hold the modified buffer `i`: in an operation, before its
`log_write`, or in `commit`, before its `bwrite`. -/
def MayDirty (s : Sys P) (p : P) (i : Fin NBUF) : Prop :=
  (s.ops.pc p).isActive = true ∨ ∃ r c, (s.th p).code = .bwrite r :: c ∧ (s.th p).reg r = i

/-- What blocks contain, in the cache and on disk. -/
structure Content (s : Sys P) (A : Nat → Block) (pins : List Nat) : Prop where
  coherent : ∀ i b, Cached s i b → (s.buf i).valid = true → (s.buf i).data = A b
  written : ∀ b, s.disk b = A b ∨ b ∈ pins ∨ ∃ i, Cached s i b ∧ (s.buf i).dirty = true
  pinned : ∀ b ∈ pins, ∃ i, Cached s i b ∧ (s.buf i).valid = true
  dirty : ∀ i, (s.buf i).dirty = true → (s.buf i).dev = ROOTDEV ∧ (s.buf i).valid = true ∧
    ∃ p, (s.buf i).lock = some p ∧ MayDirty s p i
  held : ∀ i p, (s.buf i).lock = some p → (∃ b, (s.th p).task = .fill i b) ∨
    ((s.buf i).dev = ROOTDEV ∧ (s.buf i).valid = true)

namespace Content

variable {s s' : Sys P} {A A' : Nat → Block} {pins pins' : List Nat} {i : Fin NBUF} {b' : Buf P}

section

variable (h : Content s A pins) (huniq : ∀ i j b, Cached s i b → Cached s j b → i = j)

include h huniq

/-- **Content under a step** that changes buffer `i`. -/
theorem edit (e : Edit s s' i b') (hvalid : (s.buf i).valid = true → b'.valid = true)
    (hcoh : (s.buf i).dev = ROOTDEV → b'.valid = true → b'.data = A' (s.buf i).blockno)
    (hA : ∀ b, ¬ Cached s i b → A' b = A b)
    (hdisk : ∀ b, ¬ Cached s i b → s'.disk b = s.disk b)
    (hpins : ∀ b, ¬ Cached s i b → b ∈ pins → b ∈ pins')
    (hself : (s.buf i).dev = ROOTDEV → s'.disk (s.buf i).blockno = A' (s.buf i).blockno ∨
      (s.buf i).blockno ∈ pins' ∨ b'.dirty = true)
    (hpins' : ∀ b ∈ pins', b ∈ pins ∨ (Cached s i b ∧ b'.valid = true))
    (hdirty : b'.dirty = true → (s.buf i).dev = ROOTDEV ∧ b'.valid = true ∧
      ∃ p, b'.lock = some p ∧ MayDirty s' p i)
    (hmay : ∀ j p, j ≠ i → (s.buf j).dirty = true → (s.buf j).lock = some p → MayDirty s p j →
      MayDirty s' p j)
    (hheld : ∀ p, b'.lock = some p → (∃ b, (s'.th p).task = .fill i b) ∨
      ((s.buf i).dev = ROOTDEV ∧ b'.valid = true))
    (hfill : ∀ j p b, j ≠ i → (s.th p).task = .fill j b → (s'.th p).task = .fill j b) :
    Content s' A' pins' := by
  refine ⟨fun j b hj hv => ?_, fun b => ?_, fun b hb => ?_, fun j hd => ?_, fun j p hl => ?_⟩
  · rw [e.cached] at hj
    rcases eq_or_ne j i with rfl | hji
    · rw [e.self] at hv ⊢
      exact (hcoh hj.1 hv).trans (by rw [hj.2])
    · rw [e.other hji] at hv ⊢
      rw [hA b fun hib => hji (huniq j i b hj hib)]
      exact h.coherent j b hj hv
  · by_cases hib : Cached s i b
    · rcases hself hib.1 with h1 | h1 | h1
      · exact .inl (hib.2 ▸ h1)
      · exact .inr (.inl (hib.2 ▸ h1))
      · exact .inr (.inr ⟨i, e.cached.mpr hib, by rw [e.self]; exact h1⟩)
    · rcases h.written b with h1 | h1 | ⟨j, hj, hd⟩
      · left
        rw [hdisk b hib, hA b hib]
        exact h1
      · exact .inr (.inl (hpins b hib h1))
      · refine .inr (.inr ⟨j, e.cached.mpr hj, ?_⟩)
        rw [e.other fun hji => hib (hji ▸ hj)]
        exact hd
  · rcases hpins' b hb with hb | ⟨hib, hv⟩
    · obtain ⟨j, hj, hv⟩ := h.pinned b hb
      refine ⟨j, e.cached.mpr hj, ?_⟩
      rcases eq_or_ne j i with rfl | hji
      · rw [e.self]
        exact hvalid hv
      · rw [e.other hji]
        exact hv
    · exact ⟨i, e.cached.mpr hib, by rw [e.self]; exact hv⟩
  · rcases eq_or_ne j i with rfl | hji
    · rw [e.self] at hd ⊢
      rw [e.dev]
      exact hdirty hd
    · rw [e.other hji] at hd ⊢
      obtain ⟨h1, h2, p, h3, h4⟩ := h.dirty j hd
      exact ⟨h1, h2, p, h3, hmay j p hji hd h3 h4⟩
  · rcases eq_or_ne j i with rfl | hji
    · rw [e.self] at hl ⊢
      rw [e.dev]
      exact hheld p hl
    · rw [e.other hji] at hl ⊢
      exact (h.held j p hl).imp (fun hb => ⟨_, hfill j p _ hji hb.choose_spec⟩) id

/-- The content of the block in a buffer is on disk, or it is pinned, or the buffer is modified. -/
theorem written_self (hd : (s.buf i).dev = ROOTDEV) : s.disk (s.buf i).blockno = A (s.buf i).blockno ∨
      (s.buf i).blockno ∈ pins ∨ (s.buf i).dirty = true := by
  rcases h.written (s.buf i).blockno with h1 | h1 | ⟨j, hj, hjd⟩
  · exact .inl h1
  · exact .inr (.inl h1)
  · rw [huniq j i _ hj ⟨hd, rfl⟩] at hjd
    exact .inr (.inr hjd)

/-- Content under a step that changes at most the reference count and the lock of
buffer `i`. -/
theorem touch {n : Nat} {l : Option P} (hbuf : s'.buf = update s.buf i { s.buf i with refcnt := n, lock := l })
    (hdisk : s'.disk = s.disk) (hlock : (s.buf i).dirty = true → l = (s.buf i).lock)
    (hmay : ∀ j p, (s.buf j).dirty = true → (s.buf j).lock = some p → MayDirty s p j →
      MayDirty s' p j)
    (hheld : ∀ p, l = some p → (∃ b, (s'.th p).task = .fill i b) ∨
      ((s.buf i).dev = ROOTDEV ∧ (s.buf i).valid = true))
    (hfill : ∀ j p b, j ≠ i → (s.th p).task = .fill j b → (s'.th p).task = .fill j b) :
    Content s' A pins := by
  refine h.edit huniq ⟨hbuf, rfl, rfl⟩ id (fun hd hv => h.coherent i _ ⟨hd, rfl⟩ hv) (fun _ _ => rfl)
    (fun _ _ => by rw [hdisk]) (fun _ _ hb => hb) (fun hd => ?_) (fun _ hb => .inl hb) (fun hd => ?_)
    (fun j p _ => hmay j p) hheld hfill
  · rw [hdisk]
    exact h.written_self huniq hd
  · obtain ⟨h1, h2, p, h3, h4⟩ := h.dirty i hd
    exact ⟨h1, h2, p, (hlock hd).trans h3, hmay i p hd h3 h4⟩

omit huniq

/-- **Content when `bget` recycles** an unused buffer: what it held is on disk. -/
theorem recycle [DecidableEq P] [Fintype P] {p : P} {b : Nat} (hrefs : Refs s pins)
    (h0 : (s.buf i).refcnt = 0) (hmay : ∀ q j, MayDirty s q j → MayDirty (Refs.recycled s p i b) q j)
    (hfill : ∀ j q c, (s.th q).task = .fill j c → ((Refs.recycled s p i b).th q).task = .fill j c) :
    Content (Refs.recycled s p i b) A pins := by
  obtain ⟨hl, -, hpin⟩ := hrefs.unused h0
  have hclean : ∀ j, (s.buf j).dirty = true → j ≠ i := by
    rintro j hd rfl
    obtain ⟨-, -, p, hp, -⟩ := h.dirty j hd
    rw [hl] at hp
    cases hp
  have hother : ∀ {j c}, j ≠ i → (Cached (Refs.recycled s p i b) j c ↔ Cached s j c) := by
    intro j c hj
    rw [Cached, Refs.recycled_other hj]
    rfl
  refine ⟨fun j c hj hv => ?_, fun c => ?_, fun c hc => ?_, fun j hd => ?_, fun j q hp => ?_⟩
  · rcases eq_or_ne j i with rfl | hji
    · rw [Refs.recycled_self] at hv
      cases hv
    · rw [Refs.recycled_other hji] at hv ⊢
      exact h.coherent j c ((hother hji).mp hj) hv
  · rcases h.written c with h1 | h1 | ⟨j, hj, hd⟩
    · exact .inl h1
    · exact .inr (.inl h1)
    · refine .inr (.inr ⟨j, (hother (hclean j hd)).mpr hj, ?_⟩)
      rw [Refs.recycled_other (hclean j hd)]
      exact hd
  · obtain ⟨j, hj, hv⟩ := h.pinned c hc
    -- a pinned buffer has a reference, so it is not the one that is recycled
    have hji : j ≠ i := by
      rintro rfl
      rw [pinRef, if_pos ⟨hj.1, by rw [hj.2]; exact hc⟩] at hpin
      cases hpin
    exact ⟨j, (hother hji).mpr hj, by rw [Refs.recycled_other hji]; exact hv⟩
  · rcases eq_or_ne j i with rfl | hji
    · rw [Refs.recycled_self] at hd
      exact absurd rfl (hclean j hd)
    · rw [Refs.recycled_other hji] at hd ⊢
      obtain ⟨h1, h2, q, h3, h4⟩ := h.dirty j hd
      exact ⟨h1, h2, q, h3, hmay q j h4⟩
  · rcases eq_or_ne j i with rfl | hji
    · rw [Refs.recycled_self] at hp
      exact absurd (hl.symm.trans hp) (by simp)
    · rw [Refs.recycled_other hji] at hp ⊢
      exact (h.held j q hp).imp (fun hb => ⟨_, hfill j q _ hb.choose_spec⟩) id

end

end Content

/-! ### How far `commit` is -/

/-- Process `p` has block `b` locked in its variable `r`. -/
def Holds (s : Sys P) (p : P) (r : Reg) (b : Nat) : Prop :=
  (s.buf ((s.th p).reg r)).lock = some p ∧ Cached s ((s.th p).reg r) b ∧
    (s.buf ((s.th p).reg r)).valid = true

/-- The positions in the body of `write_log`, for log block `l` and home block `h`. -/
inductive WriteLogAt (s : Sys P) (A : Nat → Block) (p : P) (l h : Nat) : List Instr → Prop
  | start : WriteLogAt s A p l h (writeLogBody l h)
  | gotLog (hl : Holds s p .log l) :
      WriteLogAt s A p l h
        [.bread .home h, .copy .log .home, .bwrite .log, .brelse .home, .brelse .log]
  | gotHome (hl : Holds s p .log l) (hh : Holds s p .home h) :
      WriteLogAt s A p l h [.copy .log .home, .bwrite .log, .brelse .home, .brelse .log]
  | copied (hl : Holds s p .log l) (hh : Holds s p .home h) (hA : A l = A h) :
      WriteLogAt s A p l h [.bwrite .log, .brelse .home, .brelse .log]
  | written (hl : Holds s p .log l) (hh : Holds s p .home h) (hA : A l = A h) :
      WriteLogAt s A p l h [.brelse .home, .brelse .log]
  | released (hl : Holds s p .log l) (hA : A l = A h) : WriteLogAt s A p l h [.brelse .log]
  | done (hA : A l = A h) : WriteLogAt s A p l h []

/-- The positions in the body of `install_trans`; `rest` are the blocks after `h`. -/
inductive InstallAt (s : Sys P) (A : Nat → Block) (pins : List Nat) (p : P) (l h : Nat)
    (rest : List Nat) : List Instr → Prop
  | start (hp : pins = h :: rest) : InstallAt s A pins p l h rest (installBody l h)
  | gotLog (hp : pins = h :: rest) (hl : Holds s p .log l) :
      InstallAt s A pins p l h rest [.bread .home h, .copy .home .log, .bwrite .home, .bunpin .home,
        .brelse .log, .brelse .home]
  | gotHome (hp : pins = h :: rest) (hl : Holds s p .log l) (hh : Holds s p .home h) :
      InstallAt s A pins p l h rest [.copy .home .log, .bwrite .home, .bunpin .home, .brelse .log,
        .brelse .home]
  | copied (hp : pins = h :: rest) (hl : Holds s p .log l) (hh : Holds s p .home h) :
      InstallAt s A pins p l h rest [.bwrite .home, .bunpin .home, .brelse .log, .brelse .home]
  | written (hp : pins = h :: rest) (hl : Holds s p .log l) (hh : Holds s p .home h)
      (hd : s.disk h = A h) :
      InstallAt s A pins p l h rest [.bunpin .home, .brelse .log, .brelse .home]
  | unpinned (hp : pins = rest) (hl : Holds s p .log l) (hh : Holds s p .home h) :
      InstallAt s A pins p l h rest [.brelse .log, .brelse .home]
  | released (hp : pins = rest) (hh : Holds s p .home h) :
      InstallAt s A pins p l h rest [.brelse .home]
  | done (hp : pins = rest) : InstallAt s A pins p l h rest []

/-- The positions in `write_head`. -/
inductive HeadAt (s : Sys P) (p : P) (l : Nat) : List Instr → Prop
  | start : HeadAt s p l (writeHeadBody l)
  | gotLog (hl : Holds s p .log l) : HeadAt s p l [.setHead .log, .bwrite .log, .brelse .log]
  | assigned (hl : Holds s p .log l) : HeadAt s p l [.bwrite .log, .brelse .log]
  | written (hl : Holds s p .log l) : HeadAt s p l [.brelse .log]
  | done : HeadAt s p l []

/-- The first `k` log blocks hold the content of their home blocks. -/
def Copied (lg : Log) (A : Nat → Block) (k : Nat) : Prop :=
  ∀ j h, lg.lh.blocks[j]? = some h → j < k → A (lg.start + j + 1) = A h

/-- Where the committing process is, and what it has achieved. -/
inductive At (s : Sys P) (A : Nat → Block) (pins : List Nat) (p : P) : Pc → List Instr → Prop
  | commit (hp : pins = s.ops.log.lh.blocks) : At s A pins p .commit []
  | writeLog {tail h c} (hh : s.ops.log.lh.blocks[tail]? = some h)
      (hcop : Copied s.ops.log A tail) (hp : pins = s.ops.log.lh.blocks)
      (hc : WriteLogAt s A p (s.ops.log.start + tail + 1) h c) : At s A pins p (.writeLog tail) c
  | wroteLog {tail} (hh : s.ops.log.lh.n ≤ tail) (hsize : 0 < s.ops.log.size)
      (hcop : Copied s.ops.log A tail) (hp : pins = s.ops.log.lh.blocks) :
      At s A pins p (.writeLog tail) []
  | writeHead {c} (hsize : 0 < s.ops.log.size) (hcop : Copied s.ops.log A s.ops.log.lh.n)
      (hp : pins = s.ops.log.lh.blocks) (hc : HeadAt s p s.ops.log.start c) :
      At s A pins p .writeHead c
  | install {tail h c} (hh : s.ops.log.lh.blocks[tail]? = some h)
      (hcop : Copied s.ops.log A s.ops.log.lh.n)
      (hc : InstallAt s A pins p (s.ops.log.start + tail + 1) h
        (s.ops.log.lh.blocks.drop (tail + 1)) c) : At s A pins p (.install tail) c
  | installed {tail} (hh : s.ops.log.lh.n ≤ tail) (hsize : 0 < s.ops.log.size) (hp : pins = []) :
      At s A pins p (.install tail) []
  | erase (hsize : 0 < s.ops.log.size) (hp : pins = []) : At s A pins p .erase []
  | clearHead {c} (hsize : 0 < s.ops.log.size) (hp : pins = []) (hc : HeadAt s p s.ops.log.start c) :
      At s A pins p .clearHead c
  | finish (hp : pins = []) : At s A pins p .finish []

/-- Only the committing process runs commit code; between commits the pinned
blocks are the logged ones. -/
structure CommitInv (s : Sys P) (A : Nat → Block) (pins : List Nat) : Prop where
  idle : ∀ p, (s.ops.pc p).isCommitter = false → (s.th p).code = []
  quiet : (∀ p, (s.ops.pc p).isCommitter = false) → pins = s.ops.log.lh.blocks
  busy : ∀ p, (s.ops.pc p).isCommitter = true → At s A pins p (s.ops.pc p) (s.th p).code

/-- Logged blocks are outside the log area, and their copies fit in it. -/
structure Home (s : Sys P) : Prop where
  outside : ∀ b ∈ s.ops.log.lh.blocks, Outside s.ops.log b
  fits : ∀ j, j < s.ops.log.lh.n → j + 1 < s.ops.log.size

/-- The invariant. -/
structure Inv [Fintype P] (s : Sys P) (A : Nat → Block) (pins : List Nat) : Prop where
  log : LogInv s.ops
  home : Home s
  refs : Refs s pins
  content : Content s A pins
  commit : CommitInv s A pins

/-! ### Steps that leave the commit alone -/

section Frame

variable {s s' : Sys P} {A : Nat → Block} {pins : List Nat} {p : P}

/-- What process `p` has locked stays what it is. -/
def KeepsBuf (s s' : Sys P) (p : P) : Prop :=
  ∀ i, (s.buf i).lock = some p → (s'.buf i).lock = some p ∧ (s'.buf i).dev = (s.buf i).dev ∧
    (s'.buf i).blockno = (s.buf i).blockno ∧ ((s.buf i).valid = true → (s'.buf i).valid = true)

/-- What process `p` has locked in its variables stays what it is. -/
structure Keeps (s s' : Sys P) (p : P) : Prop where
  reg : (s'.th p).reg = (s.th p).reg
  buf : KeepsBuf s s' p

variable {r : Reg} {b l h : Nat}

theorem Holds.of_keepsBuf (h : Holds s p r b)
    (hreg : (s'.th p).reg r = (s.th p).reg r) (hk : KeepsBuf s s' p) : Holds s' p r b := by
  obtain ⟨hl, ⟨hd, hn⟩, hv⟩ := h
  obtain ⟨h1, h2, h3, h4⟩ := hk _ hl
  refine ⟨?_, ⟨?_, ?_⟩, ?_⟩ <;> rw [hreg]
  · exact h1
  · rw [h2, hd]
  · rw [h3, hn]
  · exact h4 hv

theorem Holds.frame (h : Holds s p r b) (hk : Keeps s s' p) : Holds s' p r b :=
  h.of_keepsBuf (by rw [hk.reg]) hk.buf

variable {c : List Instr}

theorem WriteLogAt.frame (hc : WriteLogAt s A p l h c) (hk : Keeps s s' p) : WriteLogAt s' A p l h c := by
  cases hc with
  | start => exact .start
  | gotLog hl => exact .gotLog (hl.frame hk)
  | gotHome hl hh => exact .gotHome (hl.frame hk) (hh.frame hk)
  | copied hl hh hA => exact .copied (hl.frame hk) (hh.frame hk) hA
  | written hl hh hA => exact .written (hl.frame hk) (hh.frame hk) hA
  | released hl hA => exact .released (hl.frame hk) hA
  | done hA => exact .done hA

theorem InstallAt.frame {rest : List Nat}
    (hc : InstallAt s A pins p l h rest c) (hk : Keeps s s' p) (hdisk : s'.disk = s.disk) :
    InstallAt s' A pins p l h rest c := by
  cases hc with
  | start hp => exact .start hp
  | gotLog hp hl => exact .gotLog hp (hl.frame hk)
  | gotHome hp hl hh => exact .gotHome hp (hl.frame hk) (hh.frame hk)
  | copied hp hl hh => exact .copied hp (hl.frame hk) (hh.frame hk)
  | written hp hl hh hd => exact .written hp (hl.frame hk) (hh.frame hk) (by rw [hdisk, hd])
  | unpinned hp hl hh => exact .unpinned hp (hl.frame hk) (hh.frame hk)
  | released hp hh => exact .released hp (hh.frame hk)
  | done hp => exact .done hp

theorem HeadAt.frame (hc : HeadAt s p l c) (hk : Keeps s s' p) : HeadAt s' p l c := by
  cases hc with
  | start => exact .start
  | gotLog hl => exact .gotLog (hl.frame hk)
  | assigned hl => exact .assigned (hl.frame hk)
  | written hl => exact .written (hl.frame hk)
  | done => exact .done

/-- The log area and the header are the same. -/
structure SameLog (lg lg' : Log) : Prop where
  lh : lg'.lh = lg.lh
  start : lg'.start = lg.start
  size : lg'.size = lg.size

theorem SameLog.refl (lg : Log) : SameLog lg lg := ⟨rfl, rfl, rfl⟩

theorem Copied.congr {lg lg' : Log} {k : Nat} (h : Copied lg A k) (hlg : SameLog lg lg') : Copied lg' A k := by
  unfold Copied
  rw [hlg.lh, hlg.start]
  exact h

theorem At.frame {c : Pc} {code : List Instr} (h : At s A pins p c code) (hk : Keeps s s' p)
    (hlg : SameLog s.ops.log s'.ops.log) (hdisk : s'.disk = s.disk) : At s' A pins p c code := by
  cases h with
  | commit hp => exact .commit (by rw [hlg.lh]; exact hp)
  | writeLog hh hcop hp hc =>
    exact .writeLog (by rw [hlg.lh]; exact hh) (hcop.congr hlg) (by rw [hlg.lh]; exact hp)
      (by rw [hlg.start]; exact hc.frame hk)
  | wroteLog hh hsize hcop hp =>
    exact .wroteLog (by rw [hlg.lh]; exact hh) (by rw [hlg.size]; exact hsize) (hcop.congr hlg)
      (by rw [hlg.lh]; exact hp)
  | writeHead hsize hcop hp hc =>
    exact .writeHead (by rw [hlg.size]; exact hsize) (by rw [hlg.lh]; exact hcop.congr hlg)
      (by rw [hlg.lh]; exact hp) (by rw [hlg.start]; exact hc.frame hk)
  | install hh hcop hc =>
    exact .install (by rw [hlg.lh]; exact hh) (by rw [hlg.lh]; exact hcop.congr hlg)
      (by rw [hlg.start, hlg.lh]; exact hc.frame hk hdisk)
  | installed hh hsize hp =>
    exact .installed (by rw [hlg.lh]; exact hh) (by rw [hlg.size]; exact hsize) hp
  | erase hsize hp => exact .erase (by rw [hlg.size]; exact hsize) hp
  | clearHead hsize hp hc =>
    exact .clearHead (by rw [hlg.size]; exact hsize) hp (by rw [hlg.start]; exact hc.frame hk)
  | finish hp => exact .finish hp

/-- **A step that is not the commit's own** leaves it where it is. -/
theorem CommitInv.frame (h : CommitInv s A pins) (hlg : SameLog s.ops.log s'.ops.log) (hdisk : s'.disk = s.disk)
    (hcom : ∀ q, (s'.ops.pc q).isCommitter = (s.ops.pc q).isCommitter)
    (hpc : ∀ q, (s.ops.pc q).isCommitter = true → s'.ops.pc q = s.ops.pc q)
    (hcode : ∀ q, (s'.th q).code = (s.th q).code)
    (hk : ∀ q, (s.ops.pc q).isCommitter = true → Keeps s s' q) : CommitInv s' A pins := by
  refine ⟨fun q hq => ?_, fun hq => ?_, fun q hq => ?_⟩
  · rw [hcode]
    exact h.idle q (by rw [← hcom q]; exact hq)
  · rw [hlg.lh]
    exact h.quiet fun q => by rw [← hcom q]; exact hq q
  · have hq' : (s.ops.pc q).isCommitter = true := by rw [← hcom q]; exact hq
    rw [hpc q hq', hcode]
    exact (h.busy q hq').frame (hk q hq') hlg hdisk

end Frame

end Machine

end Xv6.Bcache
