/-
Xv6/BcacheRefine.lean

Buffer cache and log refine a plain array of blocks.

`Inv s A pins` relates a state to the array `A`.  Each transition is taken in
turn: the array changes when file system code stores into a buffer, and inside
the log area when `commit` fills a log block; every `bread` by file system code
returns what the array has.  `cache_refines_array` puts the steps together for
every schedule.
-/
import Xv6.BcacheInv

namespace Xv6.Bcache

open Function List Bytes Outcome

open LogOps (LogSys Pc LogInv LogStep)

section Machine

variable {P : Type} [DecidableEq P] [Fintype P]

/-- How the array changes under a step that shows `e`, outside the log area. -/
def Shows (lg : Log) (A A' : Nat → Block) : Option BlockEvent → Prop
  | none => ∀ c, Outside lg c → A' c = A c
  | some (.read b v) => (Outside lg b ∧ v = A b) ∧ ∀ c, Outside lg c → A' c = A c
  | some (.write b v) => Outside lg b ∧ ∀ c, Outside lg c → A' c = update A b v c

variable {s s' : Sys P} {A A' : Nat → Block} {pins pins' : List Nat} {p q : P} {i j : Fin NBUF} {b : Nat}
  {b' : Buf P} {t : Thread} {r : Reg} {c : List Instr}

/-! ### Facts about the state -/

omit [Fintype P] in
/-- What a step of `p` leaves alone in its own thread is the same everywhere. -/
theorem field_of_update {β : Type} (f : Thread → β) (hth : s'.th = update s.th p t)
    (hf : f t = f (s.th p)) (q : P) : f (s'.th q) = f (s.th q) := by
  by_cases hq : q = p
  · subst hq; rw [hth, update_self, hf]
  · rw [hth, update_of_ne hq]

omit [DecidableEq P] [Fintype P] in
theorem mayDirty_congr (hpc : s'.ops.pc q = s.ops.pc q) (hcode : (s'.th q).code = (s.th q).code)
    (hreg : (s'.th q).reg = (s.th q).reg) (h : MayDirty s q j) : MayDirty s' q j := by
  unfold MayDirty
  rw [hpc, hcode, hreg]
  exact h

omit [Fintype P] in
/-- A process that is not filling keeps others' fills, whatever it does next. -/
theorem fill_of_update (hth : s'.th = update s.th p t) (hp : ∀ b, (s.th p).task ≠ .fill j b)
    (hq : (s.th q).task = .fill j b) : (s'.th q).task = .fill j b := by
  rw [hth]
  by_cases hqp : q = p
  · subst hqp; exact absurd hq (hp b)
  · rw [update_of_ne hqp]; exact hq

omit [Fintype P] in
theorem fill_of_idle (hth : s'.th = update s.th p t) (ht : (s.th p).task = .none) (j : Fin NBUF) (q : P)
    (b : Nat) (_ : j ≠ i) (hq : (s.th q).task = .fill j b) : (s'.th q).task = .fill j b :=
  fill_of_update hth (by simp [ht]) hq

omit [DecidableEq P] in
theorem Refs.used_of_unref (h : Refs s pins) (ht : (s.th p).task = .unref i) : 1 ≤ (s.buf i).refcnt := by
  by_contra h0
  have hw := (h.unused (i := i) (by omega)).2.1 p
  rw [ht, waits_unref, if_pos rfl] at hw
  cases hw

omit [DecidableEq P] [Fintype P] in
theorem keepsBuf_of_update (hbuf : s'.buf = update s.buf i b')
    (hi : (s.buf i).lock = some q → b'.lock = some q ∧ b'.dev = (s.buf i).dev ∧
      b'.blockno = (s.buf i).blockno ∧ ((s.buf i).valid = true → b'.valid = true)) :
    KeepsBuf s s' q := by
  intro j hj
  rw [hbuf]
  by_cases hji : j = i
  · subst hji; rw [update_self]; exact hi hj
  · rw [update_of_ne hji]; exact ⟨hj, rfl, rfl, id⟩

omit [Fintype P] in
/-- The committing process holds what it held after a step that leaves locks and blocks alone. -/
theorem Holds.edit (h : Holds s p r b) (e : Edit s s' i b') (hth : s'.th = update s.th p t)
    (hreg : t.reg = (s.th p).reg) (hlock : b'.lock = (s.buf i).lock) (hvalid : b'.valid = (s.buf i).valid) :
    Holds s' p r b :=
  h.of_keepsBuf (by rw [hth, update_self, hreg])
    (keepsBuf_of_update e.buf fun hl => ⟨hlock.trans hl, e.dev, e.no, hvalid.trans⟩)

omit [DecidableEq P] in
/-- **What `bread` returns** is the content of the block. -/
theorem Inv.filled_eq (h : Inv s A pins) (hi : Cached s i b) : filled s i = A b := by
  unfold filled
  rcases hv : (s.buf i).valid with - | -
  · rw [hi.2]
    rcases h.content.written b with h1 | h1 | ⟨j, hj, hd⟩
    · exact h1
    · -- a pinned block has a valid buffer, and there is only one
      obtain ⟨j, hj, hjv⟩ := h.content.pinned b h1
      rw [h.refs.uniq j i b hj hi, hv] at hjv
      cases hjv
    · have hjv := (h.content.dirty j hd).2.1
      rw [h.refs.uniq j i b hj hi, hv] at hjv
      cases hjv
  · exact h.content.coherent i b hi hv

omit [DecidableEq P] in
/-- What a process holds outside of `bread` is a valid buffer. -/
theorem Inv.held (h : Inv s A pins) (hf : ∀ b, (s.th p).task ≠ .fill i b) (hl : (s.buf i).lock = some p) :
    (s.buf i).dev = ROOTDEV ∧ (s.buf i).valid = true :=
  (h.content.held i p hl).resolve_left fun hc => hf _ hc.choose_spec

omit [DecidableEq P] in
theorem Inv.of_ops (h : Inv s A pins) (hops : s'.ops = s.ops) (hr : Refs s' pins') (hc : Content s' A' pins')
    (hm : CommitInv s' A' pins') : Inv s' A' pins' :=
  ⟨hops ▸ h.log, ⟨hops ▸ h.home.outside, hops ▸ h.home.fits⟩, hr, hc, hm⟩

/-! ### Buffer calls -/

variable {n tail : Nat} {l : Option P}

/-- **A step of a buffer call** by process `p`: it changes at most the reference
count and the lock of buffer `i`, and where the process is in its call. -/
theorem Inv.called (h : Inv s A pins)
    (hbuf : s'.buf = update s.buf i { s.buf i with refcnt := n, lock := l }) (hth : s'.th = update s.th p t)
    (hops : s'.ops = s.ops) (hdisk : s'.disk = s.disk) (hlru : ∀ j ∈ s.lru, j ∈ s'.lru)
    (hcount : n + (lockRef (s.buf i) + waits (s.th p).task i) =
      (s.buf i).refcnt + ((if l.isSome then 1 else 0) + waits t.task i))
    (hwaits : ∀ j, j ≠ i → waits t.task j = waits (s.th p).task j)
    (hasks : ∀ j b, t.task = .lock j b ∨ t.task = .fill j b → Cached s j b ∧ Asks s' p b)
    (hholds : ∀ j b, t.task = .fill j b → j = i ∧ l = some p)
    (hfill : ∀ j b, (s.th p).task ≠ .fill j b)
    (hlock : ∀ q, q ≠ p → ((s.buf i).lock = some q ↔ l = some q))
    (hclean : (s.buf i).dirty = true → l = (s.buf i).lock)
    (hmay : ∀ j q, MayDirty s q j → MayDirty s' q j)
    (hheld : l = some p → (∃ b, t.task = .fill i b) ∨ ((s.buf i).dev = ROOTDEV ∧ (s.buf i).valid = true)) :
    Refs s' pins ∧ Content s' A pins := by
  have e : Edit s s' i { s.buf i with refcnt := n, lock := l } := ⟨hbuf, rfl, rfl⟩
  constructor
  · refine h.refs.edit e hth (by rw [hops]) (by rw [hops]) hlru (fun q hq hl => (hlock q hq).mp hl) ?_ hwaits
      (fun _ _ => rfl) hasks fun j c hj => ?_
    · show n + _ = _ + ((if l.isSome then 1 else 0) + _ + pinRef pins (s.buf i))
      omega
    · obtain ⟨rfl, hl⟩ := hholds j c hj
      rw [e.self]
      exact hl
  · refine h.content.touch h.refs.uniq hbuf hdisk hclean (fun j q _ _ => hmay j q) (fun q hl => ?_)
      fun j q c _ hq => fill_of_update hth (hfill j) hq
    rcases eq_or_ne q p with rfl | hq
    · rw [hth, update_self]
      exact hheld hl
    · exact (h.content.held i q ((hlock q hq).mpr hl)).imp
        (fun hc => ⟨_, fill_of_update hth (hfill i) hc.choose_spec⟩) id

variable {lru : List (Fin NBUF)}

section

variable (h : Inv s A pins)

include h

/-- A step of a buffer call that changes nothing else of the process. -/
theorem Inv.call {k : Task} (hlru : ∀ j ∈ s.lru, j ∈ lru) (hcount : n + (lockRef (s.buf i) + waits (s.th p).task i) =
      (s.buf i).refcnt + ((if l.isSome then 1 else 0) + waits k i))
    (hwaits : ∀ j, j ≠ i → waits k j = waits (s.th p).task j)
    (hasks : ∀ j b, k = .lock j b ∨ k = .fill j b → Cached s j b ∧ Asks s p b)
    (hholds : ∀ j b, k = .fill j b → j = i ∧ l = some p)
    (hfill : ∀ j b, (s.th p).task ≠ .fill j b)
    (hlock : ∀ q, q ≠ p → ((s.buf i).lock = some q ↔ l = some q))
    (hclean : (s.buf i).dirty = true → l = (s.buf i).lock)
    (hcommit : (s.ops.pc p).isCommitter = true → (s.buf i).lock = some p → l = some p)
    (hheld : l = some p → (∃ b, k = .fill i b) ∨ ((s.buf i).dev = ROOTDEV ∧ (s.buf i).valid = true)) :
    Inv { (s.setBuf i { s.buf i with refcnt := n, lock := l }).setTask p k with lru := lru } A pins := by
  set s' : Sys P := { (s.setBuf i { s.buf i with refcnt := n, lock := l }).setTask p k with lru := lru }
  have hth : s'.th = update s.th p ⟨k, (s.th p).code, (s.th p).reg⟩ := rfl
  have hcode := field_of_update Thread.code hth rfl
  have hreg := field_of_update Thread.reg hth rfl
  obtain ⟨hr, hc⟩ := h.called (show s'.buf = _ from rfl) hth rfl rfl hlru hcount hwaits
    (fun j c hj => (hasks j c hj).imp_right (asks_congr (hcode p) rfl rfl).mpr) hholds hfill hlock hclean
    (fun j q => mayDirty_congr rfl (hcode q) (hreg q)) hheld
  refine h.of_ops rfl hr hc (h.commit.frame (SameLog.refl _) rfl (fun _ => rfl) (fun _ _ => rfl) hcode
    fun q hq => ⟨hreg q, keepsBuf_of_update rfl fun hl => ⟨?_, rfl, rfl, id⟩⟩)
  rcases eq_or_ne q p with rfl | hqp
  · exact hcommit hq hl
  · exact (hlock q hqp).mp hl

theorem Inv.hit (ht : (s.th p).task = .none) (hask : Asks s p b) (hi : Cached s i b) :
    Inv ((s.setBuf i { s.buf i with refcnt := (s.buf i).refcnt + 1 }).setTask p (.lock i b)) A pins := by
  refine h.call (fun _ hj => hj) ?_ (fun j hj => by simp [ht, Ne.symm hj]) ?_ (by simp) (by simp [ht])
    (fun _ _ => Iff.rfl) (fun _ => rfl) (fun _ hl => hl) fun hl => .inr (h.held (by simp [ht]) hl)
  · simp only [lockRef, ht, waits_none, waits_lock, if_true]
    omega
  · rintro j c (hj | hj)
    · obtain ⟨rfl, rfl⟩ := Task.lock.inj hj
      exact ⟨hi, hask⟩
    · cases hj

theorem Inv.acquire (ht : (s.th p).task = .lock i b) (hl : (s.buf i).lock = none) :
    Inv ((s.setBuf i { s.buf i with lock := some p }).setTask p (.fill i b)) A pins := by
  refine h.call (fun _ hj => hj) (by simp [lockRef, ht, hl]) (fun j hj => by simp [ht, Ne.symm hj]) ?_
    (fun j c hj => ⟨(Task.fill.inj hj).1.symm, rfl⟩) (by simp [ht]) (fun q hq => by simp [hl, Ne.symm hq])
    (fun hd => ?_) (fun _ _ => rfl) fun _ => .inl ⟨b, rfl⟩
  · rintro j c (hj | hj)
    · cases hj
    · obtain ⟨rfl, rfl⟩ := Task.fill.inj hj
      exact h.refs.asks p i b (.inl ht)
  · obtain ⟨-, -, q, hq, -⟩ := h.content.dirty i hd
    rw [hl] at hq
    cases hq

theorem Inv.unref (ht : (s.th p).task = .unref i) (hlru : ∀ j ∈ s.lru, j ∈ lru) :
    Inv { (s.setBuf i { s.buf i with refcnt := (s.buf i).refcnt - 1 }).setTask p .none with
      lru := lru } A pins := by
  have hpos := h.refs.used_of_unref ht
  refine h.call hlru ?_ (fun j hj => by simp [ht, Ne.symm hj]) (by simp) (by simp) (by simp [ht])
    (fun _ _ => Iff.rfl) (fun _ => rfl) (fun _ hl => hl) fun hl => .inr (h.held (by simp [ht]) hl)
  simp only [lockRef, ht, waits_none, waits_unref, if_true]
  omega

theorem Inv.brelse (hcl : Client s p) (hl : (s.buf i).lock = some p) (hd : (s.buf i).dirty = false) :
    Inv ((s.setBuf i { s.buf i with lock := none }).setTask p (.unref i)) A pins := by
  have ht := hcl.1.1
  refine h.call (fun _ hj => hj) (by simp [lockRef, ht, hl]) (fun j hj => by simp [ht, Ne.symm hj]) (by simp)
    (by simp) (by simp [ht]) (fun q hq => by simp [hl, Ne.symm hq]) (by simp [hd]) (fun hc => ?_) (by simp)
  rcases hcl.2 with hp | hp
  · rw [hp] at hc
    cases hc
  · rw [h.log.phases.not_committer hp p] at hc
    cases hc

theorem Inv.recycle (ht : (s.th p).task = .none) (hask : Asks s p b)
    (hmiss : ∀ j, ¬ Cached s j b) (h0 : (s.buf i).refcnt = 0) : Inv (Refs.recycled s p i b) A pins := by
  have hth : (Refs.recycled s p i b).th = update s.th p ⟨.lock i b, (s.th p).code, (s.th p).reg⟩ := rfl
  have hcode := field_of_update Thread.code hth rfl
  have hreg := field_of_update Thread.reg hth rfl
  have hpin : b ∉ pins := by
    intro hb
    obtain ⟨j, hj, -⟩ := h.content.pinned b hb
    exact hmiss j hj
  refine h.of_ops rfl (h.refs.recycle ht hask hmiss h0 hpin) (h.content.recycle h.refs h0
    (fun q j => mayDirty_congr rfl (hcode q) (hreg q)) fun j q c => fill_of_update hth (by simp [ht])) ?_
  refine h.commit.frame (SameLog.refl _) rfl (fun _ => rfl) (fun _ _ => rfl) hcode fun q _ =>
    ⟨hreg q, keepsBuf_of_update rfl fun hl => ?_⟩
  -- an unused buffer is not locked
  rw [(h.refs.unused h0).1] at hl
  cases hl

/-- The end of `bread`, whoever called it. -/
theorem Inv.fill (ht : (s.th p).task = .fill i b) (htask : t.task = .none)
    (hs' : s' = (s.setBuf i { s.buf i with valid := true, data := filled s i }).setTh p t)
    (hmay : ∀ j, MayDirty s p j → MayDirty s' p j) : Refs s' pins ∧ Content s' A pins := by
  obtain ⟨hi, hask⟩ := h.refs.asks p i b (.inr ht)
  have e : Edit s s' i { s.buf i with valid := true, data := filled s i } := by
    rw [hs']
    exact ⟨rfl, rfl, rfl⟩
  have hth : s'.th = update s.th p t := by
    rw [hs']
    rfl
  have hops : s'.ops = s.ops := by
    rw [hs']
    rfl
  have hmay' : ∀ j q, MayDirty s q j → MayDirty s' q j := by
    intro j q hm
    rcases eq_or_ne q p with rfl | hq
    · exact hmay j hm
    · refine mayDirty_congr (by rw [hops]) ?_ ?_ hm <;> rw [hth, update_of_ne hq]
  constructor
  · refine h.refs.edit e hth (by rw [hops]) (by rw [hops]) (by rw [hs']; exact fun _ hj => hj) (fun q _ hl => hl)
      ?_ (fun j _ => by rw [ht, htask]; rfl) (fun _ _ => rfl) (by simp [htask]) (by simp [htask])
    rw [ht, htask]
    rfl
  · have hdisk : s'.disk = s.disk := by
      rw [hs']
      rfl
    refine h.content.edit h.refs.uniq e (fun _ => rfl) (fun _ _ => ?_) (fun _ _ => rfl)
      (fun _ _ => by rw [hdisk]) (fun _ _ hc => hc) (fun hd => ?_) (fun _ hc => .inl hc) (fun hd => ?_)
      (fun j q _ _ _ hm => hmay' j q hm) (fun q _ => .inr ⟨hi.1, rfl⟩) (fun j q c hji hq => ?_)
    · rw [h.filled_eq hi, hi.2]
    · rw [hdisk]
      exact h.content.written_self h.refs.uniq hd
    · obtain ⟨h1, -, q, h3, h4⟩ := h.content.dirty i hd
      exact ⟨h1, rfl, q, h3, hmay' i q h4⟩
    · refine fill_of_update hth (fun c' hc' => hji ?_) hq
      rw [ht] at hc'
      exact (Task.fill.inj hc').1.symm

theorem Inv.fillClient (ht : (s.th p).task = .fill i b) :
    Inv ((s.setBuf i { s.buf i with valid := true, data := filled s i }).setTask p .none) A pins := by
  set s' := (s.setBuf i { s.buf i with valid := true, data := filled s i }).setTask p .none
  have hth : s'.th = update s.th p ⟨.none, (s.th p).code, (s.th p).reg⟩ := rfl
  have hcode := field_of_update Thread.code hth rfl
  have hreg := field_of_update Thread.reg hth rfl
  obtain ⟨h1, h2⟩ : Refs s' pins ∧ Content s' A pins := h.fill ht rfl rfl fun j => mayDirty_congr rfl (hcode p) (hreg p)
  exact h.of_ops rfl h1 h2 (h.commit.frame (SameLog.refl _) rfl (fun _ => rfl) (fun _ _ => rfl) hcode fun q _ =>
    ⟨hreg q, keepsBuf_of_update rfl fun hl => ⟨hl, rfl, rfl, fun _ => rfl⟩⟩)

end

/-! ### Stores and `log_write` -/

omit [DecidableEq P] in
/-- In an operation nobody commits, and the pinned blocks are the logged ones. -/
theorem Inv.pins_eq (h : Inv s A pins) (hact : (s.ops.pc p).isActive = true) : pins = s.ops.log.lh.blocks :=
  h.commit.quiet (h.log.phases.not_committer hact)

omit [DecidableEq P] [Fintype P] in
/-- A state in which nobody commits. -/
theorem CommitInv.of_quiet (hno : ∀ q, (s'.ops.pc q).isCommitter = false) (hcode : ∀ q, (s'.th q).code = [])
    (hp : pins = s'.ops.log.lh.blocks) : CommitInv s' A pins :=
  ⟨fun q _ => hcode q, fun _ => hp, fun q hq => by rw [hno q] at hq; cases hq⟩

variable {d : Block}

theorem Inv.modify (h : Inv s A pins) (hcl : Client s p)
    (hact : (s.ops.pc p).isActive = true) (hl : (s.buf i).lock = some p) :
    Inv (s.setBuf i { s.buf i with data := d, dirty := true })
      (update A (s.buf i).blockno d) pins := by
  set s' := s.setBuf i { s.buf i with data := d, dirty := true }
  have ht := hcl.1.1
  obtain ⟨hdev, hv⟩ := h.held (by simp [ht]) hl
  have e : Edit s s' i { s.buf i with data := d, dirty := true } := ⟨rfl, rfl, rfl⟩
  have hno := h.log.phases.not_committer hact
  refine h.of_ops rfl ?_ ?_ (.of_quiet hno (fun q => h.commit.idle q (hno q)) (h.pins_eq hact))
  · exact h.refs.edit_idle e (update_eq_self p s.th).symm rfl rfl rfl ht ht rfl rfl fun _ _ => rfl
  refine h.content.edit h.refs.uniq e id (fun _ _ => by rw [update_self]) (fun c hc => ?_) (fun _ _ => rfl)
    (fun _ _ hc => hc) (fun _ => .inr (.inr rfl)) (fun _ hc => .inl hc) (fun _ => ⟨hdev, hv, p, hl, .inl hact⟩)
    (fun _ _ _ _ _ hm => hm) (fun _ _ => .inr ⟨hdev, hv⟩) (fun _ _ _ _ hq => hq)
  exact update_of_ne (fun hcb => hc ⟨hdev, hcb.symm⟩) _ _

variable {o : LogSys P}

theorem Inv.logWrite (h : Inv s A pins) (hcl : Client s p)
    (hl : (s.buf i).lock = some p) (hout : Outside s.ops.log (s.buf i).blockno)
    (ho : LogOps.step s.ops (.logWrite p (s.buf i).blockno) = .ok o) :
    Inv { s.setBuf i { s.buf i with refcnt := (s.buf i).refcnt + newPin s i, dirty := false } with
      ops := o } A o.log.lh.blocks := by
  set b' : Buf P := { s.buf i with refcnt := (s.buf i).refcnt + newPin s i, dirty := false }
  set s' : Sys P := { s.setBuf i b' with ops := o }
  have e : Edit s s' i b' := ⟨rfl, rfl, rfl⟩
  have ht := hcl.1.1
  obtain ⟨hdev, hv⟩ := h.held (by simp [ht]) hl
  have hlog' := LogOps.logInv_step h.log ho
  have hls := LogOps.logStep_of_step ho
  obtain ⟨hstart, hsize⟩ := LogOps.step_area ho
  -- the header lists the block now, and has one entry more if it is new
  have hnew : (s.ops.pc p).isActive = true ∧ (o.pc p).isActive = true ∧
      (∀ c, c ∈ o.log.lh.blocks ↔ c ∈ s.ops.log.lh.blocks ∨ c = (s.buf i).blockno) ∧
      (∀ j, j < o.log.lh.n → j + 1 < o.log.size) := by
    have hupd : ∀ c, (update s.ops.pc p c p) = c := fun c => update_self ..
    rcases hls with _ | _ | _ | _ | ⟨hp, hb, hn, hsz⟩ | ⟨hp, hb⟩
    · refine ⟨by rw [hp]; rfl, by simp only [LogOps.goto_pc, hupd]; rfl, fun c => ?_, fun j hj => ?_⟩
      · show c ∈ s.ops.log.lh.blocks ++ [_] ↔ _
        simp
      · have hlen : j < (s.ops.log.lh.blocks ++ [(s.buf i).blockno]).length := hj
        have hj' : j < s.ops.log.lh.n + 1 := by rwa [length_append] at hlen
        omega
    · refine ⟨by rw [hp]; rfl, by simp only [LogOps.goto_pc, hupd]; rfl, fun c => ?_, h.home.fits⟩
      refine ⟨.inl, ?_⟩
      rintro (hc | rfl)
      · exact hc
      · exact hb
  obtain ⟨hact, hact', hmem, hfits⟩ := hnew
  obtain rfl := h.pins_eq hact
  have hmay : ∀ j q, MayDirty s q j → MayDirty s' q j := by
    rintro j q (hq | hq)
    · rcases LogOps.isActive_step hls hq with h1 | h1
      · exact .inl h1
      · cases h1
    · exact .inr hq
  refine ⟨hlog', ⟨fun c hc => ?_, hfits⟩, ?_, ?_, .of_quiet (hlog'.phases.not_committer hact')
    (fun q => h.commit.idle q (h.log.phases.not_committer hact q)) rfl⟩
  · have hin : Outside s.ops.log c := by
      rcases (hmem c).mp hc with hc | rfl
      · exact h.home.outside c hc
      · exact hout
    rw [Outside, hstart, hsize]
    exact hin
  · refine h.refs.edit_idle e (update_eq_self p s.th).symm hstart hsize rfl ht ht rfl ?_ fun j hj => ?_
    · -- the pin counts exactly when the block is new
      have hpin' : pinRef o.log.lh.blocks b' = 1 := if_pos ⟨hdev, (hmem _).mpr (.inr rfl)⟩
      have hone : newPin s i + pinRef s.ops.log.lh.blocks (s.buf i) = 1 := by
        unfold newPin pinRef
        by_cases hb : (s.buf i).blockno ∈ s.ops.log.lh.blocks
        · rw [if_pos hb, if_pos ⟨hdev, hb⟩]
        · rw [if_neg hb, if_neg fun hc => hb hc.2]
      show (s.buf i).refcnt + newPin s i + _ = _
      omega
    · have hne : (s.buf j).dev = ROOTDEV → (s.buf j).blockno ≠ (s.buf i).blockno := fun hd hn =>
        hj (h.refs.uniq j i _ ⟨hd, hn⟩ ⟨hdev, rfl⟩)
      refine if_congr ⟨fun hc => ⟨hc.1, ?_⟩, fun hc => ⟨hc.1, (hmem _).mpr (.inl hc.2)⟩⟩ rfl rfl
      exact ((hmem _).mp hc.2).resolve_right (hne hc.1)
  · refine h.content.edit h.refs.uniq e id (fun hd hv => h.content.coherent i _ ⟨hd, rfl⟩ hv)
      (fun _ _ => rfl) (fun _ _ => rfl) (fun c _ hc => (hmem c).mpr (.inl hc))
      (fun _ => .inr (.inl ((hmem _).mpr (.inr rfl)))) (fun c hc => ?_) (by simp [b'])
      (fun j q _ _ _ hm => hmay j q hm) (fun _ _ => .inr ⟨hdev, hv⟩) (fun _ _ _ _ hq => hq)
    rcases (hmem c).mp hc with hc | rfl
    · exact .inl hc
    · exact .inr ⟨⟨hdev, rfl⟩, hv⟩

/-! ### The commit code -/

variable {x : Instr}

omit [DecidableEq P] in
/-- The process that runs commit code is where the code says. -/
theorem Inv.committer (h : Inv s A pins) (hc : (s.th p).code = x :: c) :
    (s.ops.pc p).isCommitter = true ∧ At s A pins p (s.ops.pc p) (x :: c) := by
  have hcm : (s.ops.pc p).isCommitter = true := by
    by_contra hn
    rw [h.commit.idle p (by simpa using hn)] at hc
    cases hc
  exact ⟨hcm, hc ▸ h.commit.busy p hcm⟩

omit [DecidableEq P] [Fintype P] in
/-- The committing process holds a modified buffer only before a `bwrite`. -/
theorem not_mayDirty (hcm : (s.ops.pc p).isCommitter = true) (hc : (s.th p).code = x :: c)
    (hx : ∀ r, x ≠ .bwrite r) (j : Fin NBUF) : ¬ MayDirty s p j := by
  rintro (hact | ⟨r, c', hb, -⟩)
  · rw [LogOps.isActive_of_isCommitter hcm] at hact
    cases hact
  · exact hx r (cons.inj (hc.symm.trans hb)).1

omit [Fintype P] in
theorem mayDirty_of_update (hth : s'.th = update s.th p t) (hops : s'.ops = s.ops) (hp : ¬ MayDirty s p j)
    (hm : MayDirty s q j) : MayDirty s' q j := by
  by_cases hq : q = p
  · subst hq; exact absurd hm hp
  · refine mayDirty_congr (by rw [hops]) ?_ ?_ hm <;> rw [hth, update_of_ne hq]

/-- **A step of the committing process** moves the commit on; nobody else commits. -/
theorem Inv.own {k : Pc} (h : Inv s A pins) (hcm : (s.ops.pc p).isCommitter = true) (hk : k.isCommitter = true)
    (hpc : s'.ops.pc = update s.ops.pc p k) (hth : s'.th = update s.th p t)
    (hat : At s' A' pins' p k t.code) : CommitInv s' A' pins' := by
  refine ⟨fun q hq => ?_, fun hq => ?_, fun q hq => ?_⟩
  · have hqp : q ≠ p := by
      rintro rfl
      rw [hpc, update_self, hk] at hq; cases hq
    rw [hpc, update_of_ne hqp] at hq
    rw [hth, update_of_ne hqp]
    exact h.commit.idle q hq
  · have hp := hq p
    rw [hpc, update_self, hk] at hp
    cases hp
  · have hqp : q = p := by
      rcases LogOps.isCommitter_update (hpc ▸ hq) with ⟨hqp, -⟩ | ⟨-, hq'⟩
      · exact hqp
      · exact h.log.phases.unique q p hq' hcm
    subst hqp
    rw [hpc, update_self, hth, update_self]
    exact hat

omit [Fintype P] in
/-- A variable that refers to another buffer than the changed one. -/
theorem Holds.of_ne (h : Holds s p r b) (hbuf : s'.buf = update s.buf i b') (hth : s'.th = update s.th p t)
    (hreg : t.reg r = (s.th p).reg r) (hne : (s.th p).reg r ≠ i) : Holds s' p r b := by
  unfold Holds Cached
  rw [hth, update_self, hreg, hbuf, update_of_ne hne]
  exact h

theorem Inv.fillCommit {x : Nat} (h : Inv s A pins) (ht : (s.th p).task = .fill i b)
    (hc : (s.th p).code = .bread r x :: c) :
    Inv ((s.setBuf i { s.buf i with valid := true, data := filled s i }).setTh p
      ⟨.none, c, update (s.th p).reg r i⟩) A pins := by
  set t : Thread := ⟨.none, c, update (s.th p).reg r i⟩
  set s' := (s.setBuf i { s.buf i with valid := true, data := filled s i }).setTh p t
  have hth : s'.th = update s.th p t := rfl
  obtain ⟨hcm, hat⟩ := h.committer hc
  obtain ⟨hi, hask⟩ := h.refs.asks p i b (.inr ht)
  obtain rfl : x = b := by rw [Asks, hc] at hask; exact hask
  obtain ⟨h1, h2⟩ : Refs s' pins ∧ Content s' A pins :=
    h.fill ht rfl rfl fun j hm => absurd hm (not_mayDirty hcm hc (by simp) j)
  have hself : Holds s' p r x := by
    unfold Holds Cached
    rw [hth]
    simp only [t, update_self]
    simp only [s', setTh_buf, setBuf_buf, update_self]
    exact ⟨h.refs.holds p i x ht, hi, trivial⟩
  have hother : ∀ {r' b}, r' ≠ r → Holds s p r' b → Holds s' p r' b := by
    intro r' b hr hh
    refine hh.of_keepsBuf ?_ (keepsBuf_of_update rfl fun hl => ⟨hl, rfl, rfl, fun _ => rfl⟩)
    rw [hth, update_self]
    exact update_of_ne hr _ _
  refine h.of_ops rfl h1 h2 (h.own hcm hcm (update_eq_self _ _).symm hth ?_)
  generalize s.ops.pc p = pc at hat
  cases hat with
  | writeLog hh hcop hp hw =>
    refine .writeLog hh hcop hp ?_
    cases hw with
    | start => exact .gotLog hself
    | gotLog hl => exact .gotHome (hother (by simp) hl) hself
  | writeHead hsize hcop hp hw =>
    refine .writeHead hsize hcop hp ?_
    cases hw with
    | start => exact .gotLog hself
  | install hh hcop hw =>
    refine .install hh hcop ?_
    cases hw with
    | start hp => exact .gotLog hp hself
    | gotLog hp hl => exact .gotHome hp (hother (by simp) hl) hself
  | clearHead hsize hp hw =>
    refine .clearHead hsize hp ?_
    cases hw with
    | start => exact .gotLog hself

/-- An assignment to the data of a buffer that the committing process holds: the
array follows, and the buffer is to be written next. -/
theorem Inv.assign (h : Inv s A pins) (ht : (s.th p).task = .none)
    (hc : (s.th p).code = x :: .bwrite r :: c) (hx : ∀ r, x ≠ .bwrite r) (hh : Holds s p r b)
    (hs' : s' = (s.setBuf ((s.th p).reg r) { s.buf ((s.th p).reg r) with data := d, dirty := true }).setCode p
      (.bwrite r :: c))
    (hd : d = A' b) (hA : ∀ x, x ≠ b → A' x = A x)
    (hat : (∀ {r b}, Holds s p r b → Holds s' p r b) → At s' A' pins p (s.ops.pc p) (.bwrite r :: c)) :
    Inv s' A' pins := by
  obtain ⟨hcm, -⟩ := h.committer hc
  obtain ⟨hl, hcb, hv⟩ := hh
  have hth : s'.th = update s.th p ⟨(s.th p).task, .bwrite r :: c, (s.th p).reg⟩ := by
    rw [hs']
    rfl
  have e : Edit s s' ((s.th p).reg r) { s.buf ((s.th p).reg r) with data := d, dirty := true } := by
    rw [hs']
    exact ⟨rfl, rfl, rfl⟩
  have hops : s'.ops = s.ops := by
    rw [hs']
    rfl
  refine h.of_ops hops ?_ ?_ (h.own hcm hcm (by rw [hops, update_eq_self]) hth
    (hat fun hh => hh.edit e hth rfl rfl rfl))
  · exact h.refs.edit_idle e hth (by rw [hops]) (by rw [hops]) (by rw [hs']; rfl) ht ht rfl rfl fun _ _ => rfl
  · refine h.content.edit h.refs.uniq e id (fun _ _ => by rw [hcb.2]; exact hd)
      (fun x hx => hA x fun hxb => hx (hxb ▸ hcb)) (fun _ _ => by rw [hs']; rfl) (fun _ _ hx => hx)
      (fun _ => .inr (.inr rfl)) (fun _ hx => .inl hx) (fun _ => ⟨hcb.1, hv, p, hl, .inr ⟨r, c, ?_, ?_⟩⟩)
      (fun j q _ _ _ hm => mayDirty_of_update hth hops (not_mayDirty hcm hc hx j) hm)
      (fun _ _ => .inr ⟨hcb.1, hv⟩) (fill_of_idle hth ht) <;> rw [hth, update_self]

variable {lg : Log}

/-- A log block is not a home block. -/
theorem Outside.ne_log {j : Nat} (hb : Outside lg b) (hj : j < lg.size) : b ≠ lg.start + j := by
  rcases hb with hb | hb <;> omega

/-- A changed block inside the log area does not disturb the copies made so far. -/
theorem Copied.update {k l : Nat} {v : Block} (hcop : Copied lg A k)
    (hlog : ∀ j, j < k → lg.start + j + 1 ≠ l) (hhome : ∀ x ∈ lg.lh.blocks, x ≠ l) :
    Copied lg (update A l v) k := by
  intro j x hx hj
  rw [update_of_ne (hlog j hj), update_of_ne (hhome x (mem_of_getElem? hx))]
  exact hcop j x hx hj

section

variable (h : Inv s A pins)

include h

omit [DecidableEq P] in
/-- A log block that is in use is none of the home blocks. -/
theorem Inv.ne_logBlock {x : Nat} (hh : s.ops.log.lh.blocks[tail]? = some x) {y : Nat}
    (hy : Outside s.ops.log y) : y ≠ s.ops.log.start + tail + 1 :=
  hy.ne_log (j := tail + 1) (h.home.fits tail (List.getElem?_eq_some_iff.mp hh).1)

section

variable (ht : (s.th p).task = .none)

include ht

theorem Inv.copy {dst src : Reg} (hc : (s.th p).code = .copy dst src :: c) :
    ∃ A', (∀ x, Outside s.ops.log x → A' x = A x) ∧
      Inv ((s.setBuf ((s.th p).reg dst) { s.buf ((s.th p).reg dst) with
        data := (s.buf ((s.th p).reg src)).data, dirty := true }).setCode p c) A' pins := by
  obtain ⟨hcm, hat⟩ := h.committer hc
  generalize hpc : s.ops.pc p = pc at hat
  cases hat with
  | @writeLog tail hb _ hh hcop hp hw =>
    cases hw with
    | gotHome hl hhome =>
      have hne := fun {x} => h.ne_logBlock hh (y := x)
      have hA' : ∀ x, x ≠ s.ops.log.start + tail + 1 →
          update A (s.ops.log.start + tail + 1) (A hb) x = A x := fun x hx => update_of_ne hx _ _
      refine ⟨update A (s.ops.log.start + tail + 1) (A hb), fun x hx => hA' x (hne hx), ?_⟩
      refine h.assign ht hc (by simp) hl rfl ?_ hA' fun hk => ?_
      · rw [update_self]
        exact h.content.coherent _ hb hhome.2.1 hhome.2.2
      rw [hpc]
      refine .writeLog hh (hcop.update (by omega) fun x hx => hne (h.home.outside x hx)) hp
        (.copied (hk hl) (hk hhome) ?_)
      exact (update_self ..).trans (hA' hb (hne (h.home.outside hb (mem_of_getElem? hh)))).symm
  | writeHead _ _ _ hw | clearHead _ _ hw => cases hw
  | @install tail hb _ hh hcop hw =>
    cases hw with
    | gotHome hp hl hhome =>
      refine ⟨A, fun _ _ => rfl, h.assign ht hc (by simp) hhome rfl ?_ (fun _ _ => rfl) fun hk => ?_⟩
      · -- the log copy is the content of the home block
        rw [← hcop tail hb hh (List.getElem?_eq_some_iff.mp hh).1]
        exact h.content.coherent _ _ hl.2.1 hl.2.2
      · rw [hpc]
        exact .install hh hcop (.copied hp (hk hl) (hk hhome))

theorem Inv.setHead (hc : (s.th p).code = .setHead r :: c) :
    ∃ A', (∀ x, Outside s.ops.log x → A' x = A x) ∧
      Inv ((s.setBuf ((s.th p).reg r) { s.buf ((s.th p).reg r) with
        data := s.ops.log.lh.store (s.buf ((s.th p).reg r)).data, dirty := true }).setCode p c)
        A' pins := by
  obtain ⟨hcm, hat⟩ := h.committer hc
  obtain ⟨d, hd⟩ : ∃ d, d = s.ops.log.lh.store (s.buf ((s.th p).reg r)).data := ⟨_, rfl⟩
  rw [← hd]
  have hA' : ∀ x, x ≠ s.ops.log.start → update A s.ops.log.start d x = A x := fun x hx =>
    update_of_ne hx _ _
  have hne : ∀ x, 0 < s.ops.log.size → Outside s.ops.log x → x ≠ s.ops.log.start := fun x hsize hx =>
    hx.ne_log hsize
  have hself : d = update A s.ops.log.start d s.ops.log.start := by rw [update_self]
  generalize hpc : s.ops.pc p = pc at hat
  cases hat with
  | writeHead hsize hcop hp hw =>
    cases hw with
    | gotLog hl =>
      refine ⟨_, fun x hx => hA' x (hne x hsize hx), h.assign ht hc (by simp) hl rfl hself hA' fun hk => ?_⟩
      rw [hpc]
      exact .writeHead hsize (hcop.update (by omega)
        fun x hx => hne x hsize (h.home.outside x hx)) hp (.assigned (hk hl))
  | clearHead hsize hp hw =>
    cases hw with
    | gotLog hl =>
      refine ⟨_, fun x hx => hA' x (hne x hsize hx), h.assign ht hc (by simp) hl rfl hself hA' fun hk => ?_⟩
      rw [hpc]
      exact .clearHead hsize hp (.assigned (hk hl))
  | writeLog _ _ _ hw | install _ _ hw => cases hw

theorem Inv.bwrite (hc : (s.th p).code = .bwrite r :: c) (hl : (s.buf ((s.th p).reg r)).lock = some p) :
    Inv { (s.setCode p c).setBuf ((s.th p).reg r) { s.buf ((s.th p).reg r) with dirty := false } with
      disk := update s.disk (s.buf ((s.th p).reg r)).blockno
        (s.buf ((s.th p).reg r)).data } A pins := by
  set i := (s.th p).reg r with hi
  set s' : Sys P := { (s.setCode p c).setBuf i { s.buf i with dirty := false } with
    disk := update s.disk (s.buf i).blockno (s.buf i).data }
  have e : Edit s s' i { s.buf i with dirty := false } := ⟨rfl, rfl, rfl⟩
  have hth : s'.th = update s.th p ⟨(s.th p).task, c, (s.th p).reg⟩ := rfl
  obtain ⟨hcm, hat⟩ := h.committer hc
  obtain ⟨hdev, hv⟩ := h.held (by simp [ht]) hl
  have hdata : (s.buf i).data = A (s.buf i).blockno := h.content.coherent i _ ⟨hdev, rfl⟩ hv
  have hk : ∀ {r b}, Holds s p r b → Holds s' p r b := fun hh => hh.edit e hth rfl rfl rfl
  refine h.of_ops rfl ?_ ?_ (h.own hcm hcm (update_eq_self _ _).symm hth ?_)
  · exact h.refs.edit_idle e hth rfl rfl rfl ht ht rfl rfl fun _ _ => rfl
  · refine h.content.edit h.refs.uniq e id (fun _ _ => hdata)
      (fun _ _ => rfl) (fun x hx => update_of_ne (fun hxb => hx ⟨hdev, hxb.symm⟩) _ _) (fun _ _ hx => hx)
      (fun _ => .inl ((update_self ..).trans hdata)) (fun _ hx => .inl hx) (by simp) (fun j q hji _ _ hm => ?_)
      (fun _ _ => .inr ⟨hdev, hv⟩) (fill_of_idle hth ht)
    by_cases hq : q = p
    · -- `p` may have modified only the buffer it writes now
      subst hq
      rcases hm with hact | ⟨r', c', hb, hj⟩
      · exact .inl hact
      · rw [hc] at hb
        rw [← Instr.bwrite.inj (cons.inj hb).1] at hj
        exact absurd hj.symm hji
    · refine mayDirty_congr (s := s) rfl ?_ ?_ hm <;> rw [hth, update_of_ne hq]
  · generalize s.ops.pc p = pc at hat
    cases hat with
    | writeLog hh hcop hp hw =>
      cases hw with
      | copied hlog hhome hA => exact .writeLog hh hcop hp (.written (hk hlog) (hk hhome) hA)
    | writeHead hsize hcop hp hw =>
      cases hw with
      | assigned hlog => exact .writeHead hsize hcop hp (.written (hk hlog))
    | @install tail hb _ hh hcop hw =>
      cases hw with
      | copied hp hlog hhome =>
        refine .install hh hcop (.written hp (hk hlog) (hk hhome) ?_)
        have hbn : (s.buf i).blockno = hb := hhome.2.1.2
        show update s.disk (s.buf i).blockno (s.buf i).data hb = A hb
        rw [← hbn, update_self, hdata]
    | clearHead hsize hp hw =>
      cases hw with
      | assigned hlog => exact .clearHead hsize hp (.written (hk hlog))

theorem Inv.bunpin (hc : (s.th p).code = .bunpin r :: c) :
    ∃ pins', Inv ((s.setCode p c).setBuf ((s.th p).reg r)
      { s.buf ((s.th p).reg r) with refcnt := (s.buf ((s.th p).reg r)).refcnt - 1 }) A pins' := by
  set i := (s.th p).reg r with hi
  set b' : Buf P := { s.buf i with refcnt := (s.buf i).refcnt - 1 }
  set s' : Sys P := (s.setCode p c).setBuf i b'
  have e : Edit s s' i b' := ⟨rfl, rfl, rfl⟩
  have hth : s'.th = update s.th p ⟨(s.th p).task, c, (s.th p).reg⟩ := rfl
  obtain ⟨hcm, hat⟩ := h.committer hc
  have hnd := not_mayDirty hcm hc (by simp)
  have hk : ∀ {r b}, Holds s p r b → Holds s' p r b := fun hh => hh.edit e hth rfl rfl rfl
  generalize hpc : s.ops.pc p = pc at hat
  cases hat with
  | @install tail hb _ hh hcop hw =>
    cases hw with
    | written hp hlog hhome hd =>
      obtain ⟨hlock, ⟨hdev, hno⟩, hv⟩ := hhome
      -- the rest of the list does not name the block again
      have hnotin : hb ∉ s.ops.log.lh.blocks.drop (tail + 1) := by
        obtain ⟨hlt, hget⟩ := List.getElem?_eq_some_iff.mp hh
        have hnd : (hb :: s.ops.log.lh.blocks.drop (tail + 1)).Nodup := by
          rw [← hget, ← drop_eq_getElem_cons hlt]
          exact h.log.history.nodup.sublist (drop_sublist ..)
        exact (nodup_cons.mp hnd).1
      refine ⟨s.ops.log.lh.blocks.drop (tail + 1), h.of_ops rfl ?_ ?_
        (h.own hcm hcm (update_eq_self _ _).symm hth ?_)⟩
      · have hpin : pinRef pins (s.buf i) = 1 := by
          rw [hp]
          exact if_pos ⟨hdev, by rw [hno]; exact mem_cons_self⟩
        have hpin' : pinRef (s.ops.log.lh.blocks.drop (tail + 1)) b' = 0 :=
          if_neg fun hx => hnotin (hno ▸ hx.2)
        have hcount := h.refs.count i
        refine h.refs.edit_idle e hth rfl rfl rfl ht ht rfl ?_ fun j hj => ?_
        · show (s.buf i).refcnt - 1 + _ = _
          omega
        rw [hp]
        refine if_congr ⟨fun hx => ⟨hx.1, mem_cons_of_mem _ hx.2⟩, fun hx => ⟨hx.1, ?_⟩⟩ rfl rfl
        refine (mem_cons.mp hx.2).resolve_left fun hjb => hj ?_
        exact h.refs.uniq j i hb ⟨hx.1, hjb⟩ ⟨hdev, hno⟩
      · refine h.content.edit h.refs.uniq e id (fun hd hv => h.content.coherent i _ ⟨hd, rfl⟩ hv)
          (fun _ _ => rfl) (fun _ _ => rfl) (fun x hx hxp => ?_) (fun _ => .inl ?_)
          (fun x hx => .inl (hp ▸ mem_cons_of_mem _ hx)) (fun hdirty => ?_)
          (fun j q _ _ _ hm => mayDirty_of_update hth rfl (hnd j) hm) (fun _ _ => .inr ⟨hdev, hv⟩)
          (fill_of_idle hth ht)
        · rw [hp] at hxp
          exact (mem_cons.mp hxp).resolve_left fun hxb => hx ⟨hdev, hno.trans hxb.symm⟩
        · show s.disk (s.buf i).blockno = A (s.buf i).blockno
          rw [hno, hd]
        · obtain ⟨-, -, q, hq, hm⟩ := h.content.dirty i hdirty
          rw [hlock] at hq
          obtain rfl := Option.some.inj hq
          exact absurd hm (hnd i)
      · rw [hpc]
        exact .install hh hcop (.unpinned rfl (hk hlog) (hk ⟨hlock, ⟨hdev, hno⟩, hv⟩))
  | writeLog _ _ _ hw | writeHead _ _ _ hw | clearHead _ _ hw => cases hw

theorem Inv.release (hc : (s.th p).code = .brelse r :: c) (hl : (s.buf ((s.th p).reg r)).lock = some p) :
    Inv (((s.setCode p c).setBuf ((s.th p).reg r)
      { s.buf ((s.th p).reg r) with lock := none }).setTh p
        { (s.th p) with code := c, task := .unref ((s.th p).reg r) }) A pins := by
  set i := (s.th p).reg r with hi
  set t : Thread := { (s.th p) with code := c, task := .unref i }
  set s' : Sys P := ((s.setCode p c).setBuf i { s.buf i with lock := none }).setTh p t
  obtain ⟨hcm, hat⟩ := h.committer hc
  have hnd := not_mayDirty hcm hc (by simp)
  have hth : s'.th = update s.th p t := by
    show update (update s.th p _) p t = _
    rw [update_idem]
  have hclean : (s.buf i).dirty = false := by
    by_contra hd
    obtain ⟨-, -, q, hq, hm⟩ := h.content.dirty i (by simpa using hd)
    rw [hl] at hq
    obtain rfl := Option.some.inj hq
    exact hnd i hm
  -- the other variable refers to another block, hence to another buffer
  have hother : ∀ {r' b b₀}, Holds s p r b₀ → Holds s p r' b → b ≠ b₀ → Holds s' p r' b := by
    intro r' b b₀ h0 hh hne
    refine hh.of_ne rfl hth rfl fun hreg => hne ?_
    rw [← hh.2.1.2, hreg, ← h0.2.1.2]
  obtain ⟨hr, hcon⟩ := h.called (show s'.buf = _ from rfl) hth rfl rfl (fun _ hj => hj)
    (by simp [lockRef, ht, hl, t]) (fun j hj => by simp [ht, t, Ne.symm hj]) (by simp [t]) (by simp [t])
    (by simp [ht]) (fun q hq => by simp [hl, Ne.symm hq]) (by simp [hclean])
    (fun j q hm => mayDirty_of_update hth rfl (hnd j) hm) (by simp)
  refine h.of_ops rfl hr hcon (h.own hcm hcm (update_eq_self _ _).symm hth ?_)
  generalize s.ops.pc p = pc at hat
  cases hat with
  | @writeLog tail hb _ hh hcop hp hw =>
    refine .writeLog hh hcop hp ?_
    have hne := h.ne_logBlock hh (h.home.outside hb (mem_of_getElem? hh))
    cases hw with
    | written hlog hhome hA => exact .released (hother hhome hlog (Ne.symm hne)) hA
    | released hlog hA => exact .done hA
  | writeHead hsize hcop hp hw =>
    cases hw with
    | written hlog => exact .writeHead hsize hcop hp .done
  | @install tail hb _ hh hcop hw =>
    refine .install hh hcop ?_
    have hne := h.ne_logBlock hh (h.home.outside hb (mem_of_getElem? hh))
    cases hw with
    | unpinned hp hlog hhome => exact .released hp (hother hlog hhome hne)
    | released hp hhome => exact .done hp
  | clearHead hsize hp hw =>
    cases hw with
    | written hlog => exact .clearHead hsize hp .done

end

end

/-! ### Steps of the log's machine -/

theorem body_writeLog (hb : lg.lh.blocks[tail]? = some b) :
    body lg (.writeLog tail) = writeLogBody (lg.start + tail + 1) b := by
  rw [body, hb]

theorem body_install (hb : lg.lh.blocks[tail]? = some b) :
    body lg (.install tail) = installBody (lg.start + tail + 1) b := by
  rw [body, hb]

theorem body_past (hn : lg.lh.n ≤ tail) : body lg (.writeLog tail) = [] ∧ body lg (.install tail) = [] := by
  have hb : lg.lh.blocks[tail]? = none := List.getElem?_eq_none hn
  constructor <;> rw [body, hb]

omit [DecidableEq P] [Fintype P] in
/-- Entering iteration `tail` of `write_log`. -/
theorem at_writeLog (hcop : Copied s'.ops.log A tail) (hp : pins = s'.ops.log.lh.blocks) (hsize : 0 < s'.ops.log.size) :
    At s' A pins p (.writeLog tail) (body s'.ops.log (.writeLog tail)) := by
  rcases hb : s'.ops.log.lh.blocks[tail]? with - | h
  · have hn : s'.ops.log.lh.n ≤ tail := List.getElem?_eq_none_iff.mp hb
    rw [(body_past hn).1]
    exact .wroteLog hn hsize hcop hp
  · rw [body_writeLog hb]
    exact .writeLog hb hcop hp .start

omit [DecidableEq P] [Fintype P] in
/-- Entering iteration `tail` of `install_trans`. -/
theorem at_install (hcop : Copied s'.ops.log A s'.ops.log.lh.n)
    (hp : pins = s'.ops.log.lh.blocks.drop tail) (hsize : 0 < s'.ops.log.size) :
    At s' A pins p (.install tail) (body s'.ops.log (.install tail)) := by
  rcases hb : s'.ops.log.lh.blocks[tail]? with - | h
  · have hn : s'.ops.log.lh.n ≤ tail := List.getElem?_eq_none_iff.mp hb
    rw [(body_past hn).2]
    exact .installed hn hsize (by rw [hp]; exact drop_eq_nil_of_le hn)
  · rw [body_install hb]
    obtain ⟨hlt, hget⟩ := List.getElem?_eq_some_iff.mp hb
    refine .install hb hcop (.start ?_)
    rw [hp, drop_eq_getElem_cons hlt, hget]

/-- **The control flow of `commit`**: from one body to the next. -/
theorem Inv.at_next (h : Inv s A pins) (hlg : s'.ops.log = o.log)
    (hcode : (s.th p).code = []) (ho : LogOps.commitStep s.ops p = .ok o) :
    (s.ops.pc p).isCommitter = true ∧ ∃ c, c.isCommitter = true ∧
      o.pc = update s.ops.pc p c ∧ At s' A pins p c (body s'.ops.log c) := by
  have hat := fun hcm => h.commit.busy p hcm
  rw [hcode] at hat
  unfold LogOps.commitStep at ho
  split at ho
  · -- into the first loop, or past everything
    rename_i hpc
    rw [hpc] at hat ⊢
    obtain rfl := ok.inj ho
    replace hlg : s'.ops.log = s.ops.log := hlg
    cases hat rfl with
    | commit hp =>
      rw [hlg]
      split_ifs with hn
      · have hfit := h.home.fits 0 hn
        refine ⟨rfl, .writeLog 0, rfl, rfl, ?_⟩
        rw [← hlg] at hp hfit ⊢
        exact at_writeLog (fun j _ _ hj => absurd hj (by omega)) hp (by omega)
      · refine ⟨rfl, .finish, rfl, rfl, .finish ?_⟩
        rw [hp]
        exact eq_nil_of_length_eq_zero (Nat.eq_zero_of_not_pos hn)
  · -- the next block of `write_log`, or its end
    rename_i tail hpc
    rw [hpc] at hat ⊢
    obtain rfl := ok.inj ho
    replace hlg : s'.ops.log = s.ops.log := hlg
    rw [hlg]
    cases hat rfl with
    | @writeLog _ hb _ hh hcop hp hw =>
      have hlt : tail < s.ops.log.lh.n := (List.getElem?_eq_some_iff.mp hh).1
      rw [if_pos hlt]
      have hfit := h.home.fits tail hlt
      refine ⟨rfl, .writeLog (tail + 1), rfl, rfl, ?_⟩
      have hcop' : Copied s.ops.log A (tail + 1) := by
        intro j x hx hj
        rcases Nat.lt_succ_iff_lt_or_eq.mp hj with hj | rfl
        · exact hcop j x hx hj
        · rw [hh] at hx
          cases hw with
          | done hA => rw [← Option.some.inj hx]; exact hA
      rw [← hlg] at hp hfit hcop' ⊢
      exact at_writeLog hcop' hp (by omega)
    | wroteLog hn hsize hcop hp =>
      rw [if_neg (by omega)]
      refine ⟨rfl, .writeHead, rfl, rfl, ?_⟩
      rw [← hlg] at hn hsize hcop hp ⊢
      exact .writeHead hsize (fun j x hx hj => hcop j x hx (by omega)) hp .start
  · -- the header is on disk
    rename_i hpc
    rw [hpc] at hat ⊢
    obtain rfl := ok.inj ho
    replace hlg : s'.ops.log = s.ops.log := hlg
    rw [hlg]
    cases hat rfl with
    | writeHead hsize hcop hp hw =>
      refine ⟨rfl, .install 0, rfl, rfl, ?_⟩
      rw [← hlg] at hsize hcop hp ⊢
      exact at_install hcop (by rw [drop_zero]; exact hp) hsize
  · -- the next block of `install_trans`, or its end
    rename_i tail hpc
    rw [hpc] at hat ⊢
    obtain rfl := ok.inj ho
    replace hlg : s'.ops.log = s.ops.log := hlg
    rw [hlg]
    cases hat rfl with
    | @install _ hb _ hh hcop hw =>
      have hlt : tail < s.ops.log.lh.n := (List.getElem?_eq_some_iff.mp hh).1
      rw [if_pos hlt]
      have hfit := h.home.fits tail hlt
      refine ⟨rfl, .install (tail + 1), rfl, rfl, ?_⟩
      cases hw with
      | done hp =>
        rw [← hlg] at hp hfit hcop ⊢
        exact at_install hcop hp (by omega)
    | installed hn hsize hp =>
      rw [if_neg (by omega)]
      refine ⟨rfl, .erase, rfl, rfl, ?_⟩
      rw [← hlg] at hsize ⊢
      exact .erase hsize hp
  · rename_i hpc
    rw [hpc] at hat ⊢
    obtain rfl := ok.inj ho
    cases hat rfl with
    | erase hsize hp =>
      refine ⟨rfl, .clearHead, rfl, rfl, .clearHead ?_ hp .start⟩
      rw [hlg]
      exact hsize
  · rename_i hpc
    rw [hpc] at hat ⊢
    obtain rfl := ok.inj ho
    cases hat rfl with
    | clearHead hsize hp hw => exact ⟨rfl, .finish, rfl, rfl, .finish hp⟩
  · cases ho

variable {pc : P → Pc}

omit [Fintype P] in
/-- A process that does not commit moves to where it does not commit either: the
committing processes are the same, at the same place. -/
theorem committers_update {c : Pc} (hp : (pc p).isCommitter = false) (hc : c.isCommitter = false) (q : P) :
    (update pc p c q).isCommitter = (pc q).isCommitter ∧
      ((pc q).isCommitter = true → update pc p c q = pc q) := by
  rcases eq_or_ne q p with rfl | hq
  · rw [update_self, hc, hp]
    exact ⟨rfl, fun h => by cases h⟩
  · rw [update_of_ne hq]
    exact ⟨rfl, fun _ => rfl⟩

omit [DecidableEq P] [Fintype P] in
theorem committers_wakeup (q : P) :
    (LogOps.wakeup pc q).isCommitter = (pc q).isCommitter ∧
      ((pc q).isCommitter = true → LogOps.wakeup pc q = pc q) := by
  refine ⟨LogOps.wakeup_map Pc.isCommitter rfl pc q, fun hq => ?_⟩
  rcases LogOps.wakeup_cases pc q with h | ⟨-, h⟩
  · exact h
  · rw [h] at hq; cases hq

variable {a : LogOps.Act P}

/-- The commit under `begin_op`, `end_op` and the control flow of `commit`. -/
theorem Inv.ops_commit (h : Inv s A pins)
    (hfree : Free s (actor a)) (ha : ∀ p b, a ≠ .logWrite p b) (ho : LogOps.step s.ops a = .ok o)
    (hops : s'.ops = o) (hbuf : s'.buf = s.buf) (hdisk : s'.disk = s.disk)
    (hth : s'.th = update s.th (actor a)
      { s.th (actor a) with code := body o.log (o.pc (actor a)) }) : CommitInv s' A pins := by
  have hreg := field_of_update Thread.reg hth rfl
  have hk : ∀ q, Keeps s s' q := fun q =>
    ⟨hreg q, fun j hj => by rw [hbuf]; exact ⟨hj, rfl, rfl, fun hv => hv⟩⟩
  -- steps that concern no committing process
  have hframe : body o.log (o.pc (actor a)) = [] → SameLog s.ops.log o.log →
      (∀ q, (o.pc q).isCommitter = (s.ops.pc q).isCommitter ∧
        ((s.ops.pc q).isCommitter = true → o.pc q = s.ops.pc q)) → CommitInv s' A pins := by
    intro hbody hlg hpc
    refine h.commit.frame (by rw [hops]; exact hlg) hdisk (fun q => by rw [hops]; exact (hpc q).1)
      (fun q => by rw [hops]; exact (hpc q).2) (field_of_update Thread.code hth ?_) fun q _ => hk q
    rw [hbody, hfree.2]
  by_cases hnc : ∀ p, a ≠ .commit p
  case neg =>
    -- the control flow of `commit`
    push Not at hnc
    obtain ⟨p, rfl⟩ := hnc
    obtain ⟨hcm, c, hc, hpc, hat⟩ := h.at_next (p := p) (show s'.ops.log = o.log by rw [hops]) hfree.2 ho
    refine h.own hcm hc (by rw [hops]; exact hpc) hth ?_
    show At s' A pins p c (body o.log (o.pc p))
    rw [hpc, update_self, ← hops]
    exact hat
  have hlogInv := LogOps.logInv_step h.log ho
  have hls := LogOps.logStep_of_step ho
  have hself : ∀ {p : P} {c : Pc}, update s.ops.pc p c p = c := update_self ..
  cases hls with
  | logNew | absorb => exact absurd rfl (ha _ _)
  | @beginOp p hp | @wake p hp =>
    refine hframe ?_ (SameLog.refl _) fun q => committers_update (by rw [hp]; rfl) rfl q
    show body _ (update s.ops.pc p .starting p) = []
    rw [hself]; rfl
  | @admitted p hp hc hroom =>
    refine hframe ?_ ⟨rfl, rfl, rfl⟩ fun q => committers_update (by rw [hp]; rfl) rfl q
    show body _ (update s.ops.pc p _ p) = []
    rw [hself]; rfl
  | @sleep p hp =>
    refine hframe ?_ (SameLog.refl _) fun q => committers_update (by rw [hp]; rfl) rfl q
    show body _ (update s.ops.pc p .asleep p) = []
    rw [hself]; rfl
  | @endOther p op mine hp hc ho =>
    refine hframe ?_ ⟨rfl, rfl, rfl⟩ fun q => ?_
    · show body _ (LogOps.wakeup (update s.ops.pc p .idle) p) = []
      rw [LogOps.wakeup, hself]; rfl
    have hnot : (s.ops.pc p).isCommitter = false := by rw [hp]; rfl
    obtain ⟨h1, h2⟩ := committers_update hnot (show Pc.idle.isCommitter = false from rfl) q
    obtain ⟨h3, h4⟩ := @committers_wakeup P (update s.ops.pc p .idle) q
    exact ⟨h3.trans h1, fun hq => (h4 (h1.trans hq)).trans (h2 hq)⟩
  | @endLast p op mine hp hc hout =>
    -- the operation was the last one: its process commits
    have hact : (s.ops.pc p).isActive = true := by rw [hp]; rfl
    have hnone := h.log.phases.not_committer hact
    refine ⟨fun q hq => ?_, fun hq => ?_, fun q hq => ?_⟩
    · have hqp : q ≠ p := by
        rintro rfl
        rw [hops] at hq
        have hq' : (update s.ops.pc q .commit q).isCommitter = false := hq
        rw [hself] at hq'
        cases hq'
      rw [hth]
      show (update s.th p _ q).code = []
      rw [update_of_ne hqp]
      exact h.commit.idle q (hnone q)
    · have hp' := hq p
      rw [hops] at hp'
      have hp'' : (update s.ops.pc p .commit p).isCommitter = false := hp'
      rw [hself] at hp''
      cases hp''
    · rw [hops] at hq
      rcases LogOps.isCommitter_update hq with ⟨rfl, -⟩ | ⟨-, hq'⟩
      · rw [hops, hth]
        show At s' A pins q (update s.ops.pc q .commit q)
          (update s.th q { s.th q with
            code := body s.ops.log (update s.ops.pc q .commit q) } q).code
        rw [hself, update_self]
        refine .commit ?_
        rw [hops]
        exact h.pins_eq hact
      · rw [hnone q] at hq'; cases hq'
  | @endCommit p hp =>
    have hcm : (s.ops.pc p).isCommitter = true := by rw [hp]; rfl
    have hnil : s.ops.log.lh.blocks = [] :=
      eq_nil_of_length_eq_zero (h.log.drained.done p (by rw [hp]; rfl))
    have hpins : pins = [] := by
      have hat := h.commit.busy p hcm
      rw [hp, show (s.th p).code = [] from hfree.2] at hat
      cases hat with
      | finish hp => exact hp
    have hnone : ∀ q, (s'.ops.pc q).isCommitter = false := by
      intro q
      rcases hq : (s'.ops.pc q).isCommitter with - | -
      · rfl
      · have hc := (hops ▸ hlogInv).phases.owner q hq
        rw [hops] at hc
        cases hc
    refine ⟨fun q _ => ?_, fun _ => ?_, fun q hq => ?_⟩
    · rw [hth]
      show (update s.th p { s.th p with
        code := body s.ops.log.endCommit (LogOps.wakeup (update s.ops.pc p .idle) p) } q).code = []
      rcases eq_or_ne q p with rfl | hqp
      · rw [update_self, LogOps.wakeup, hself]
        rfl
      rw [update_of_ne hqp]
      refine h.commit.idle q ?_
      rcases hq : (s.ops.pc q).isCommitter with - | -
      · rfl
      · exact absurd (h.log.phases.unique q p hq hcm) hqp
    · rw [hpins, hops]
      exact hnil.symm
    · rw [hnone q] at hq; cases hq
  | move | writeHead | erase => exact absurd rfl (hnc _)

theorem Inv.ops (h : Inv s A pins) (hfree : Free s (actor a)) (hlog : Logged s a) (ho : LogOps.step s.ops a = .ok o) :
    Inv ({ s with ops := o }.setCode (actor a) (body o.log (o.pc (actor a)))) A pins := by
  set s' := { s with ops := o }.setCode (actor a) (body o.log (o.pc (actor a)))
  have hth : s'.th = update s.th (actor a)
      { s.th (actor a) with code := body o.log (o.pc (actor a)) } := rfl
  have ha : ∀ p b, a ≠ .logWrite p b := by
    rintro p b rfl
    exact hlog
  have hls := LogOps.logStep_of_step ho
  obtain ⟨hstart, hsize⟩ := LogOps.step_area ho
  have htask := field_of_update Thread.task hth rfl
  -- no buffer changes
  let i₀ : Fin NBUF := ⟨0, NBUF_pos⟩
  have hbuf : s'.buf = update s.buf i₀ (s.buf i₀) := (update_eq_self _ _).symm
  refine ⟨LogOps.logInv_step h.log ho, ⟨fun b hb => ?_, fun j hj => ?_⟩, ?_, ?_,
    h.ops_commit hfree ha ho rfl rfl rfl hth⟩
  · show Outside o.log b
    rw [Outside, hstart, hsize]
    rcases LogOps.lh_step hls ha with hlh | hlh
    · exact h.home.outside b (hlh ▸ hb)
    · have hb' : b ∈ o.log.lh.blocks := hb
      rw [hlh] at hb'; cases hb'
  · show j + 1 < o.log.size
    rw [hsize]
    have hj' : j < o.log.lh.n := hj
    rcases LogOps.lh_step hls ha with hlh | hlh <;> rw [hlh] at hj'
    · exact h.home.fits j hj'
    · cases hj'
  · exact h.refs.edit_idle ⟨hbuf, rfl, rfl⟩ hth hstart hsize rfl hfree.1 hfree.1 rfl rfl fun _ _ => rfl
  · refine h.content.touch h.refs.uniq hbuf rfl (fun _ => rfl) ?_ ?_ fun j q b _ hq => (htask q).trans hq
    · rintro j q hd hl (hq | ⟨r, c, hc, hr⟩)
      · rcases LogOps.isActive_step hls hq with h1 | rfl
        · exact Or.inl h1
        · -- nothing modified is left unlogged at `end_op`
          have hclean : (s.buf j).dirty = false := hlog j hl
          rw [hclean] at hd; cases hd
      · have hqa : q ≠ actor a := by
          rintro rfl
          rw [hfree.2] at hc; cases hc
        refine Or.inr ⟨r, c, ?_, ?_⟩ <;> rw [hth, update_of_ne hqa]
        · exact hc
        · exact hr
    · intro q hl
      rcases h.content.held i₀ q hl with ⟨b, hb⟩ | hv
      · exact Or.inl ⟨b, (htask q).trans hb⟩
      · exact Or.inr hv

/-! ### The refinement -/

variable {e : Option BlockEvent}

/-- **Every step keeps the invariant**, for an array that changes as the step shows. -/
theorem Inv.step (h : Inv s A pins) (hs : BStep s e s') : ∃ A' pins', Inv s' A' pins' ∧ Shows s.ops.log A A' e := by
  have hsame : Shows s.ops.log A A none := fun _ _ => rfl
  cases hs with
  | ops hfree hlog ho => exact ⟨A, pins, h.ops hfree hlog ho, hsame⟩
  | hit ht hask hi => exact ⟨A, pins, h.hit ht hask hi, hsame⟩
  | recycle ht hask hmiss h0 =>
    exact ⟨A, pins, h.recycle ht hask (fun j => hmiss j (h.refs.listed j)) h0, hsame⟩
  | acquire ht hl => exact ⟨A, pins, h.acquire ht hl, hsame⟩
  | @fillClient p i b ht hc =>
    obtain ⟨hi, hask⟩ := h.refs.asks p i b (Or.inr ht)
    rw [Asks, hc] at hask
    exact ⟨A, pins, h.fillClient ht, ⟨hask, h.filled_eq hi⟩, fun _ _ => rfl⟩
  | fillCommit ht hc => exact ⟨A, pins, h.fillCommit ht hc, hsame⟩
  | unref ht hlru => exact ⟨A, pins, h.unref ht hlru, hsame⟩
  | modify hcl hact hl hout => exact ⟨_, pins, h.modify hcl hact hl, hout, fun _ _ => rfl⟩
  | logWrite hcl hl hout ho => exact ⟨A, _, h.logWrite hcl hl hout ho, hsame⟩
  | brelse hcl hl hd => exact ⟨A, pins, h.brelse hcl hl hd, hsame⟩
  | copy ht hc =>
    obtain ⟨A', hA, hinv⟩ := h.copy ht hc
    exact ⟨A', pins, hinv, hA⟩
  | setHead ht hc =>
    obtain ⟨A', hA, hinv⟩ := h.setHead ht hc
    exact ⟨A', pins, hinv, hA⟩
  | bwrite ht hc hl => exact ⟨A, pins, h.bwrite ht hc hl, hsame⟩
  | bunpin ht hc =>
    obtain ⟨pins', hinv⟩ := h.bunpin ht hc
    exact ⟨A, pins', hinv, hsame⟩
  | release ht hc hl => exact ⟨A, pins, h.release ht hc hl, hsame⟩

omit [Fintype P] in
theorem bstep_area (hs : BStep s e s') : s'.ops.log.start = s.ops.log.start ∧ s'.ops.log.size = s.ops.log.size := by
  cases hs with
  | ops _ _ ho | logWrite _ _ _ ho => exact LogOps.step_area ho
  | _ => exact ⟨rfl, rfl⟩

/-- After boot and recovery: nobody uses a buffer, and what is cached is what is on
disk. -/
structure Start (s : Sys P) : Prop where
  log : s.ops = LogOps.boot s.ops.log.start s.ops.log.size
  listed : ∀ i, i ∈ s.lru
  uniq : ∀ i j b, Cached s i b → Cached s j b → i = j
  unused : ∀ i, (s.buf i).refcnt = 0 ∧ (s.buf i).lock = none ∧ (s.buf i).dirty = false
  fresh : ∀ i b, Cached s i b → (s.buf i).valid = true → (s.buf i).data = s.disk b
  idle : ∀ p, (s.th p).task = .none ∧ (s.th p).code = []

theorem Start.inv (h : Start s) : Inv s s.disk [] := by
  have hlh : s.ops.log.lh = LogHeader.empty := by rw [h.log]; rfl
  have hpc : ∀ p, s.ops.pc p = .idle := by intro p; rw [h.log]; rfl
  refine ⟨?_, ⟨fun b hb => ?_, fun j hj => ?_⟩, ⟨h.listed, h.uniq, fun i => ?_, fun p i b ht => ?_,
    fun p i b ht => ?_⟩, ⟨h.fresh, fun b => Or.inl rfl, fun b hb => absurd hb not_mem_nil,
    fun i hd => ?_, fun i p hl => ?_⟩, ⟨fun p _ => (h.idle p).2, fun _ => (by rw [hlh]; rfl),
    fun p hp => ?_⟩⟩
  · rw [h.log]
    exact LogOps.logInv_run (Machine.Run.nil _)
  · rw [hlh] at hb; cases hb
  · rw [hlh] at hj; cases hj
  · obtain ⟨h0, hl, -⟩ := h.unused i
    have hw : ∑ p, waits (s.th p).task i = 0 :=
      Finset.sum_eq_zero fun p _ => by rw [(h.idle p).1]; rfl
    have hp : pinRef [] (s.buf i) = 0 := if_neg fun hx => by cases hx.2
    rw [h0, hw, hp, lockRef, hl]
    rfl
  · rw [(h.idle p).1] at ht
    rcases ht with ht | ht <;> cases ht
  · rw [(h.idle p).1] at ht; cases ht
  · rw [(h.unused i).2.2] at hd; cases hd
  · rw [(h.unused i).2.1] at hl; cases hl
  · rw [hpc p] at hp; cases hp

/-- The specification: a plain array of blocks. -/
def plainArray (m : Nat → Block) : BlockEvent → Option (Nat → Block)
  | .read b v => if v = m b then some m else none
  | .write b v => some (update m b v)

omit [DecidableEq P] in
/-- A block whose content is not on disk yet is in a valid buffer that is in use. -/
theorem Inv.unwritten (h : Inv s A pins) (hd : s.disk b ≠ A b) :
    ∃ i, Cached s i b ∧ (s.buf i).valid = true ∧ (s.buf i).refcnt ≠ 0 ∧ (s.buf i).data = A b := by
  rcases h.content.written b with h1 | h1 | ⟨i, hi, hdirty⟩
  · exact absurd h1 hd
  · obtain ⟨i, hi, hv⟩ := h.content.pinned b h1
    refine ⟨i, hi, hv, fun h0 => ?_, h.content.coherent i b hi hv⟩
    have hp := (h.refs.unused h0).2.2
    rw [pinRef, if_pos ⟨hi.1, by rw [hi.2]; exact h1⟩] at hp
    cases hp
  · obtain ⟨-, hv, q, hq, -⟩ := h.content.dirty i hdirty
    refine ⟨i, hi, hv, fun h0 => ?_, h.content.coherent i b hi hv⟩
    rw [(h.refs.unused h0).1] at hq
    cases hq

/-- **Buffer cache and log refine a plain array of blocks.**  For any number of
processes and any interleaving, what file system code reads and writes is a
history of the plain array that starts as the disk: every `bread` returns what
was stored last.  A block that is not written to disk yet stays in a buffer in
use, and an unused valid buffer equals its block on disk. -/
theorem cache_refines_array {s₀ s : Sys P} {as : List (Act P)} (h₀ : Start s₀)
    (h : Machine.outcome step s₀ as = .ok s) :
    ∃ m, (Machine.trace step obs s₀ as).foldlM plainArray s₀.disk = some m ∧
      (∀ b, Outside s.ops.log b → s.disk b ≠ m b →
        ∃ i, Cached s i b ∧ (s.buf i).valid = true ∧ (s.buf i).refcnt ≠ 0 ∧ (s.buf i).data = m b) ∧
      (∀ i b, Cached s i b → (s.buf i).valid = true → (s.buf i).refcnt = 0 →
        (s.buf i).data = s.disk b) := by
  have hsim : ∀ (s : Sys P) (a : Act P) (s' : Sys P) (m : Nat → Block),
      (∃ A pins, Inv s A pins ∧ ∀ b, Outside s.ops.log b → A b = m b) → step s a = .ok s' →
      ∃ m', (obs s a s').toList.foldlM plainArray m = some m' ∧
        ∃ A pins, Inv s' A pins ∧ ∀ b, Outside s'.ops.log b → A b = m' b := by
    rintro s a s' m ⟨A, pins, hinv, hm⟩ hs
    have hb := bstep_of_step hs
    obtain ⟨A', pins', hinv', hshow⟩ := hinv.step hb
    obtain ⟨hstart, hsize⟩ := bstep_area hb
    have hout : ∀ b, Outside s'.ops.log b → Outside s.ops.log b := by
      intro b hb
      rw [Outside, hstart, hsize] at hb
      exact hb
    rcases he : obs s a s' with - | ⟨b, v⟩ | ⟨b, v⟩ <;> rw [he] at hshow
    · exact ⟨m, rfl, A', pins', hinv', fun c hc => (hshow c (hout c hc)).trans (hm c (hout c hc))⟩
    · obtain ⟨⟨hb, hv⟩, hA⟩ := hshow
      refine ⟨m, ?_, A', pins', hinv', fun c hc => (hA c (hout c hc)).trans (hm c (hout c hc))⟩
      simp [plainArray, hv, hm b hb]
    · obtain ⟨hb, hA⟩ := hshow
      refine ⟨update m b v, rfl, A', pins', hinv', fun c hc => ?_⟩
      rw [hA c (hout c hc)]
      by_cases hcb : c = b
      · rw [hcb, update_self, update_self]
      · rw [update_of_ne hcb, update_of_ne hcb, hm c (hout c hc)]
  obtain ⟨m, htrace, A, pins, hinv, hm⟩ :=
    Machine.outcome_refines hsim h ⟨s₀.disk, [], h₀.inv, fun _ _ => rfl⟩
  refine ⟨m, htrace, fun b hb hd => ?_, fun i b hi hv h0 => ?_⟩
  · rw [← hm b hb] at hd ⊢
    exact hinv.unwritten hd
  by_contra hne
  rw [hinv.content.coherent i b hi hv] at hne
  obtain ⟨j, hj, -, hj0, -⟩ := hinv.unwritten (Ne.symm hne)
  rw [hinv.refs.uniq j i b hj hi] at hj0
  exact hj0 h0

end Machine

/-- The state that `binit` leaves. -/
def boot {P : Type} (start size : Nat) (d : Disk) : Sys P where
  ops := LogOps.boot start size
  buf := fun _ => ⟨false, 0, 0, none, 0, zero, false⟩
  lru := (List.finRange NBUF).reverse
  disk := d
  th := fun _ => ⟨.none, [], fun _ => ⟨0, NBUF_pos⟩⟩

theorem start_boot {P : Type} (start size : Nat) (d : Disk) : Start (boot start size d : Sys P) where
  log := rfl
  listed := fun i => by simp [boot]
  uniq := fun i j b hi => by cases hi.1
  unused := fun i => ⟨rfl, rfl, rfl⟩
  fresh := fun i b hi => by cases hi.1
  idle := fun p => ⟨rfl, rfl⟩

/-- One process stores `d` in block 50; another one reads the block before anything
is committed. -/
def storeThenRead (d : Block) : List (Act (Fin 2)) :=
  [.ops (.beginOp 0), .ops (.tryBegin 0), .bget 0 50, .acquire 0, .bget 1 50, .fill 0,
    .modify 0 ⟨0, NBUF_pos⟩ d, .logWrite 0 ⟨0, NBUF_pos⟩, .brelse 0 ⟨0, NBUF_pos⟩, .acquire 1,
    .unref 0, .fill 1]

/-- The run exists, and its history is one of the plain array. -/
theorem cache_refines_array_two :
    ∃ s m, Machine.outcome step (boot 2 30 fun _ => zero)
        (storeThenRead (ofFn fun _ => 7)) = .ok s ∧
      (Machine.trace step obs (boot 2 30 fun _ => zero)
        (storeThenRead (ofFn fun _ => 7))).foldlM plainArray (fun _ => zero) = some m := by
  obtain ⟨s, hs⟩ : ∃ s, Machine.outcome step (boot 2 30 fun _ => zero)
    (storeThenRead (ofFn fun _ => 7)) = .ok s := ⟨_, rfl⟩
  obtain ⟨m, hm, -⟩ := cache_refines_array (start_boot 2 30 fun _ => zero) hs
  exact ⟨s, m, hs, hm⟩

end Xv6.Bcache
