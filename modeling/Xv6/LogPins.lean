/-
Xv6/LogPins.lean

What the log lists and what it pins.

`log_write` lists a block once, however often it is logged, and pins its buffer when
it does.  `install_trans` takes the pins off again, one block after the other, while
the header in memory still lists them all; `log.lh.n = 0` comes after that.

`pinned` are the blocks that are still to be unpinned.  It is the whole header
until the header is on disk, what `install_trans` has not come to after that, and
nothing once the header is erased.  The references to a buffer are those of its
holders, and one more if its block is among them (`pins_exact`).
-/
import Xv6.BcacheRefine

namespace Xv6

open Function

/-! ### The header on disk -/

namespace LogOps

section Machine

variable {P : Type} [DecidableEq P] [Fintype P] {s s' : LogSys P} {a : Act P}

/-- After the header write, the last header on disk is the one in memory. -/
def Written (s : LogSys P) : Prop := Late s → s.commits.getLast? = some s.log.lh.blocks

omit [Fintype P] in
/-- A move that does not come behind the header write keeps what was written. -/
theorem Written.goto (h : Written s) {p : P} {c : Pc} (hc : c.isLate = true → (s.pc p).isLate = true) :
    Written (s.goto p c) := by
  rintro ⟨q, hq⟩
  refine h ?_
  rcases eq_or_ne q p with rfl | hqp
  · rw [goto_pc, update_self] at hq
    exact ⟨q, hc hq⟩
  · rw [goto_pc, update_of_ne hqp] at hq
    exact ⟨q, hq⟩

theorem Written.step (h : Written s) (hph : Phases s) (hs : LogStep s a s') : Written s' := by
  -- nobody is behind the header write while an operation is in progress
  have hactive : ∀ {p : P} {c : Pc} {q : P}, (s.pc p).isActive = true → c.isLate = false →
      (update s.pc p c q).isLate = true → False := by
    intro p c q hp hc hq
    rcases eq_or_ne q p with rfl | hqp
    · rw [update_self, hc] at hq
      cases hq
    rw [update_of_ne hqp] at hq
    have hcm := hph.not_committer hp q
    rw [isCommitter_of_isLate hq] at hcm
    cases hcm
  cases hs with
  | beginOp | sleep | wake | admitted | endLast => exact h.goto nofun
  | @logNew _ b op mine hp | @absorb _ b op mine hp =>
    rintro ⟨q, hq⟩
    exact (hactive (c := .active op (mine.insert b)) (by rw [hp]; rfl) rfl hq).elim
  | @endOther p op mine hp hc ho =>
    rintro ⟨q, hq⟩
    have hq' : (wakeup (update s.pc p .idle) q).isLate = true := hq
    rw [wakeup_map Pc.isLate rfl] at hq'
    exact (hactive (c := .idle) (by rw [hp]; rfl) rfl hq').elim
  | @move p c c' hp hc hc' hlate hdone => exact h.goto fun hl => by rw [hp, ← hlate]; exact hl
  | writeHead hp =>
    intro _
    simp
  | @erase p hp =>
    rintro ⟨q, hq⟩
    rcases eq_or_ne q p with rfl | hqp
    · simp [Pc.isLate] at hq
    -- there is one committer
    have hq' : (s.pc q).isLate = true := by simpa [hqp] using hq
    have hone := hph.unique q p (isCommitter_of_isLate hq') (by rw [hp]; rfl)
    exact absurd hone hqp
  | @endCommit p hp =>
    rintro ⟨q, hq⟩
    have hq' : (wakeup (update s.pc p .idle) q).isLate = true := hq
    rw [wakeup_map Pc.isLate rfl] at hq'
    refine h ⟨q, ?_⟩
    rcases eq_or_ne q p with rfl | hqp
    · simp [Pc.isLate] at hq'
    · rwa [update_of_ne hqp] at hq'

omit [DecidableEq P] [Fintype P] in
theorem written_boot (start size : Nat) : Written (boot start size : LogSys P) := by
  rintro ⟨p, hp⟩
  cases hp

end Machine

end LogOps

/-! ### Pins -/

namespace Bcache

open LogOps (Late Written)

section Machine

variable {P : Type} [DecidableEq P] [Fintype P] {s : Sys P} {A : Nat → Block} {pins : List Nat}

/-- The references that processes have to a buffer: that of the holder of its lock, and those of
the processes that wait for it or are about to let it go. -/
def holders (s : Sys P) (i : Fin NBUF) : Nat := lockRef (s.buf i) + ∑ p, waits (s.th p).task i

omit [DecidableEq P] in
/-- Until the header is on disk, and when it is erased, the pinned blocks are the listed ones. -/
theorem Inv.pins_listed (h : Inv s A pins) (hl : ¬ Late s.ops) : pins = s.ops.log.lh.blocks := by
  by_cases hq : ∀ p, (s.ops.pc p).isCommitter = false
  · exact h.commit.quiet hq
  obtain ⟨p, hp⟩ := not_forall.mp hq
  have hcm : (s.ops.pc p).isCommitter = true := by simpa using hp
  have hearly : (s.ops.pc p).isLate = false := by simpa using fun hlate => hl ⟨p, hlate⟩
  have hempty : (s.ops.pc p).isDone = true → s.ops.log.lh.blocks = [] := fun hd =>
    List.eq_nil_of_length_eq_zero (h.log.drained.done p hd)
  have hat := h.commit.busy p hcm
  generalize hc : s.ops.pc p = c at hat hearly hempty
  generalize (s.th p).code = code at hat
  cases hat with
  | commit hp | writeLog _ _ hp | wroteLog _ _ _ hp | writeHead _ _ hp => exact hp
  | install | installed | erase => cases hearly
  | clearHead _ hp | finish hp => rw [hp, hempty rfl]

omit [DecidableEq P] in
/-- After that, they are those that `install_trans` has not come to. -/
theorem Inv.pins_drop (h : Inv s A pins) : ∃ done, pins = s.ops.log.lh.blocks.drop done := by
  by_cases hl : Late s.ops
  · obtain ⟨p, hlate⟩ := hl
    have hat := h.commit.busy p (LogOps.isCommitter_of_isLate hlate)
    have hend : s.ops.log.lh.blocks.drop s.ops.log.lh.blocks.length = [] := List.drop_length
    generalize s.ops.pc p = c at hat hlate
    generalize (s.th p).code = code at hat
    cases hat with
    | commit | writeLog | wroteLog | writeHead | clearHead | finish => cases hlate
    | installed _ _ hp | erase _ hp => exact ⟨_, hp.trans hend.symm⟩
    | @install tail b code hh _ hc =>
      have hcons : b :: s.ops.log.lh.blocks.drop (tail + 1) = s.ops.log.lh.blocks.drop tail := by
        obtain ⟨hlt, hb⟩ := List.getElem?_eq_some_iff.mp hh
        rw [← hb]
        exact List.cons_getElem_drop_succ
      cases hc with
      | start hp | gotLog hp | gotHome hp | copied hp | written hp => exact ⟨tail, hp.trans hcons⟩
      | unpinned hp | released hp | done hp => exact ⟨tail + 1, hp⟩
  · exact ⟨0, h.pins_listed hl⟩

/-- The invariant of the cache and of the log, with the header that was written last. -/
structure PinInv (s : Sys P) : Prop where
  inv : ∃ A pins, Inv s A pins
  written : Written s.ops

variable {s' : Sys P}

omit [Fintype P] in
/-- A step of the system is a step of the log, or leaves it alone. -/
theorem ops_step {e : Option BlockEvent} (hs : BStep s e s') :
    s'.ops = s.ops ∨ ∃ a, LogOps.step s.ops a = .ok s'.ops := by
  cases hs with
  | ops _ _ ho | logWrite _ _ _ ho => exact Or.inr ⟨_, ho⟩
  | _ => exact Or.inl rfl

theorem PinInv.step {a : Act P} (h : PinInv s) (hs : step s a = .ok s') : PinInv s' := by
  obtain ⟨A, pins, hi⟩ := h.inv
  obtain ⟨A', pins', hi', -⟩ := hi.step (bstep_of_step hs)
  refine ⟨⟨A', pins', hi'⟩, ?_⟩
  rcases ops_step (bstep_of_step hs) with heq | ⟨a, ha⟩
  · rw [heq]
    exact h.written
  · exact h.written.step hi.log.phases (LogOps.logStep_of_step ha)

theorem pinInv_run {s₀ : Sys P} (h₀ : Start s₀) {as : List (Act P)} (h : Machine.Run step s₀ as s) : PinInv s := by
  refine h.invariant (fun _ _ _ hi hs => hi.step hs) ⟨⟨_, _, h₀.inv⟩, ?_⟩
  rw [h₀.log]
  exact LogOps.written_boot _ _

omit [DecidableEq P] in
/-- Behind the header write, what is listed was logged before it and after the header before that. -/
theorem PinInv.installing (h : PinInv s) (hl : Late s.ops) (b : Nat) :
    b ∈ s.ops.log.lh.blocks ↔ ∃ e ∈ s.ops.hist, e.txn + 1 = s.ops.commits.length ∧ e.block = b := by
  obtain ⟨A, pins, hi⟩ := h.inv
  have hlast := h.written hl
  have hne : s.ops.commits ≠ [] := fun hnil => by simp [hnil] at hlast
  have hpos := List.length_pos_of_ne_nil hne
  rw [List.getLast?_eq_getElem?] at hlast
  rw [hi.log.history.committed _ _ hlast b]
  have hiff : ∀ e : LogOps.Entry, e.txn = s.ops.commits.length - 1 ↔ e.txn + 1 = s.ops.commits.length := by
    intro e
    omega
  simp only [hiff]

/-- **The log lists what was logged, once, and pins what it lists.**  For any number of processes and
any interleaving: the header has no block twice, and it has just the blocks that were logged since the
header before it was written.  The references to a buffer are those of its holders, and one for the log
if its block is listed.  Every listed block has one buffer.  While `install_trans` runs, this is true of
the blocks that it has not come to.  After that, the header is empty and all references are those of
holders. -/
theorem pins_exact {s₀ : Sys P} (h₀ : Start s₀) {as : List (Act P)} (h : Machine.Run step s₀ as s) :
    s.ops.log.lh.blocks.Nodup ∧
      (¬ Late s.ops → ∀ b, b ∈ s.ops.log.lh.blocks ↔
        ∃ e ∈ s.ops.hist, e.txn = s.ops.commits.length ∧ e.block = b) ∧
      (Late s.ops → ∀ b, b ∈ s.ops.log.lh.blocks ↔
        ∃ e ∈ s.ops.hist, e.txn + 1 = s.ops.commits.length ∧ e.block = b) ∧
      (∃ done, (¬ Late s.ops → done = 0) ∧
        (∀ b ∈ s.ops.log.lh.blocks.drop done, ∃! i, Cached s i b) ∧
        ∀ i, (s.buf i).refcnt = holders s i +
          if (s.buf i).dev = ROOTDEV ∧ (s.buf i).blockno ∈ s.ops.log.lh.blocks.drop done then 1 else 0) ∧
      ((∃ p, (s.ops.pc p).isDone = true) ∨ s.ops.log.committing = false ∧ s.ops.log.outstanding = 0 →
        s.ops.log.lh.n = 0 ∧ ∀ i, (s.buf i).refcnt = holders s i) := by
  have hp := pinInv_run h₀ h
  obtain ⟨A, pins, hi⟩ := hp.inv
  have hcount : ∀ i, (s.buf i).refcnt = holders s i + pinRef pins (s.buf i) := hi.refs.count
  refine ⟨hi.log.history.nodup, hi.log.history.header, hp.installing, ?_, fun hdone => ?_⟩
  · have hone : ∀ b ∈ pins, ∃! i, Cached s i b := fun b hb => by
      obtain ⟨i, hc, -⟩ := hi.content.pinned b hb
      exact ⟨i, hc, fun j hj => hi.refs.uniq j i b hj hc⟩
    by_cases hl : Late s.ops
    · obtain ⟨done, rfl⟩ := hi.pins_drop
      exact ⟨done, fun hn => absurd hl hn, hone, hcount⟩
    · obtain rfl := hi.pins_listed hl
      exact ⟨0, fun _ => rfl, hone, hcount⟩
  · have hzero : s.ops.log.lh.n = 0 := by
      rcases hdone with ⟨p, hp⟩ | ⟨hc, ho⟩
      · exact hi.log.drained.done p hp
      · exact hi.log.drained.idle hc ho
    refine ⟨hzero, fun i => ?_⟩
    obtain ⟨done, hdrop⟩ := hi.pins_drop
    rw [List.eq_nil_of_length_eq_zero hzero, List.drop_nil] at hdrop
    rw [hcount i, hdrop, pinRef, if_neg fun hx => absurd hx.2 List.not_mem_nil, Nat.add_zero]

/-- **Between operations the disk is up to date**: if no operation runs or commits, a valid buffer is as on disk. -/
theorem buffers_on_disk {s₀ : Sys P} (h₀ : Start s₀) {as : List (Act P)} (h : Machine.Run step s₀ as s)
    (ho : s.ops.log.outstanding = 0) (hc : s.ops.log.committing = false) :
    ∀ i b, Cached s i b → (s.buf i).valid = true → (s.buf i).data = s.disk b := by
  intro i b hb hv
  obtain ⟨A, pins, hi⟩ := (pinInv_run h₀ h).inv
  obtain ⟨done, rfl⟩ := hi.pins_drop
  rw [hi.content.coherent i b hb hv]
  rcases hi.content.written b with hd | hd | ⟨j, -, hd⟩
  · exact hd.symm
  · rw [List.eq_nil_of_length_eq_zero (hi.log.drained.idle hc ho), List.drop_nil] at hd
    cases hd
  · -- only an operation or `commit` holds a modified buffer
    obtain ⟨-, -, p, -, hp | ⟨r, c, hcode, -⟩⟩ := hi.content.dirty j hd
    · have hpos := hi.log.phases.outstanding_pos hp
      omega
    · rw [hi.commit.idle p (Bool.eq_false_of_not_eq_true fun hp => ?_)] at hcode
      · cases hcode
      · cases hc.symm.trans (hi.log.phases.owner p hp)

end Machine

/-- One process logs a block twice. -/
def logTwice (d : Block) : List (Act (Fin 2)) :=
  [.ops (.beginOp 0), .ops (.tryBegin 0), .bget 0 50, .acquire 0, .fill 0, .modify 0 ⟨0, NBUF_pos⟩ d,
    .logWrite 0 ⟨0, NBUF_pos⟩, .logWrite 0 ⟨0, NBUF_pos⟩]

/-- The block is listed once, and its buffer has two references: one of its holder and one of the log. -/
theorem pins_exact_logTwice :
    ∃ s, Machine.Run step (boot 2 30 fun _ => Bytes.zero) (logTwice (Bytes.ofFn fun _ => 7)) s ∧
      s.ops.log.lh.blocks = [50] ∧ s.ops.log.lh.blocks.Nodup ∧ (s.buf ⟨0, NBUF_pos⟩).refcnt = 2 := by
  obtain ⟨s, hs, hlist, href⟩ : ∃ s, Machine.outcome step (boot 2 30 fun _ => Bytes.zero)
      (logTwice (Bytes.ofFn fun _ => 7)) = .ok s ∧ s.ops.log.lh.blocks = [50] ∧
      (s.buf ⟨0, NBUF_pos⟩).refcnt = 2 := ⟨_, rfl, rfl, rfl⟩
  have hr := Machine.run_of_outcome hs
  exact ⟨s, hr, hlist, (pins_exact (start_boot 2 30 fun _ => Bytes.zero) hr).1, href⟩

/-- A block is read: its buffer is as on disk. -/
theorem buffers_on_disk_read : ∃ s : Sys (Fin 2), Machine.Run step (boot 2 30 fun _ => Bytes.zero)
    [.bget 0 50, .acquire 0, .fill 0] s ∧ (s.buf ⟨0, NBUF_pos⟩).data = s.disk 50 := by
  have hr := Machine.run_of_outcome (show Machine.outcome step (boot 2 30 fun _ => Bytes.zero)
    [.bget (0 : Fin 2) 50, .acquire 0, .fill 0] = .ok _ from rfl)
  exact ⟨_, hr, buffers_on_disk (start_boot ..) hr rfl rfl _ 50 ⟨rfl, rfl⟩ rfl⟩

end Bcache

end Xv6
