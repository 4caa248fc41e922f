/-
Xv6/LogDisk.lean

What kernel/log.c writes to the disk: `commit`, and the recovery at boot.

The functions are sequential programs over the disk (`DiskProg`) that pass the
kernel's memory along.  Of the memory they use the in-memory log header and
the buffer cache, here block by block: the cached contents, if any, and the
reference count.  A released buffer that nobody references may be recycled
before it is wanted again; whether it is, is decided by an arbitrary oracle
(`recycle`), so nothing below depends on the replacement policy.

The results are the exact lists of writes, in order, of `commit`
(`commit_writes`) and of `recover_from_log` (`recoverFromLog_writes`).  What a
crash can make of them is the subject of LogCrash.lean.
-/
import Xv6.Lib.DiskProg
import Xv6.LogHeader

namespace Xv6.LogDisk

open Function LogHeader Prod

/-- The kernel memory that the log's disk code works on. -/
structure Mem where
  /-- `log.lh`. -/
  lh : LogHeader
  /-- The valid buffers: cached contents by block number. -/
  buf : Nat → Option Block
  /-- The reference counts of the buffers. -/
  refcnt : Nat → Nat
  /-- Whether the buffer of the `i`-th release is recycled once it is free. -/
  recycle : Nat → Bool
  /-- Releases so far. -/
  releases : Nat

/-- Memory right after boot: nothing cached, the log header zeroed. -/
def Mem.boot (recycle : Nat → Bool) : Mem where
  lh := empty
  buf := fun _ => none
  refcnt := fun _ => 0
  recycle := recycle
  releases := 0

/-- Kernel code over memory and disk. -/
abbrev K (α : Type) : Type := StateT Mem (DiskProg Nat Block) α

/-! ### Buffers -/

/-- `bread`: the contents of the block, from the cache or else from the disk. -/
def bread (b : Nat) : K Block := fun m =>
  match m.buf b with
  | some x => .ret (x, { m with refcnt := update m.refcnt b (m.refcnt b + 1) })
  | none => .read b fun x =>
    .ret (x, { m with buf := update m.buf b (some x),
                      refcnt := update m.refcnt b (m.refcnt b + 1) })

/-- `memmove(b->data, x, BSIZE)` into a buffer. -/
def setData (b : Nat) (x : Block) : K Unit := fun m =>
  .ret ((), { m with buf := update m.buf b (some x) })

/-- `bwrite`: write the buffer's contents to its block. -/
def bwrite (b : Nat) : K Unit := fun m =>
  .write b ((m.buf b).getD default) (.ret ((), m))

/-- `bunpin`. -/
def bunpin (b : Nat) : K Unit := fun m =>
  .ret ((), { m with refcnt := update m.refcnt b (m.refcnt b - 1) })

/-- `brelse`: drop the reference; a buffer left without one may be recycled. -/
def brelse (b : Nat) : K Unit := fun m =>
  .ret ((), { m with
    refcnt := update m.refcnt b (m.refcnt b - 1)
    buf := if m.refcnt b - 1 = 0 ∧ m.recycle m.releases then update m.buf b none else m.buf
    releases := m.releases + 1 })

/-! ### The log on disk -/

/-- Replace `log.lh`. -/
def setHeader (lh : LogHeader) : K Unit := fun m => .ret ((), { m with lh := lh })

section Log

variable (start : Nat)

/-- The loop of `install_trans` from index `tail` on. -/
def installTransFrom (recovering : Bool) : List Nat → Nat → K Unit
  | [], _ => pure ()
  | b :: bs, tail => do
    let lbuf ← bread (start + tail + 1)
    let _ ← bread b
    setData b lbuf
    bwrite b
    let _ ← (if recovering then pure () else bunpin b : K Unit)
    brelse (start + tail + 1)
    brelse b
    installTransFrom recovering bs (tail + 1)

/-- `install_trans`: copy committed blocks from log to their home location. -/
def installTrans (recovering : Bool) : K Unit := fun m =>
  installTransFrom start recovering m.lh.blocks 0 m

/-- `read_head`: read the log header from disk into memory.  `false` when the
count on disk would overrun the in-memory array. -/
def readHead : K Bool := do
  let buf ← bread start
  match load buf with
  | some lh => do
    setHeader lh
    brelse start
    pure true
  | none => pure false

/-- `write_head`: write the in-memory log header to disk.  This is the true
point at which the current transaction commits. -/
def writeHead : K Unit := do
  let buf ← bread start
  let m ← get
  setData start (m.lh.store buf)
  bwrite start
  brelse start

/-- `recover_from_log`. -/
def recoverFromLog : K Unit := do
  if ← readHead start then
    installTrans start true
    setHeader empty
    writeHead start
  else pure ()

/-- The loop of `write_log` from index `tail` on. -/
def writeLogFrom : List Nat → Nat → K Unit
  | [], _ => pure ()
  | b :: bs, tail => do
    let _ ← bread (start + tail + 1)
    let src ← bread b
    setData (start + tail + 1) src
    bwrite (start + tail + 1)
    brelse b
    brelse (start + tail + 1)
    writeLogFrom bs (tail + 1)

/-- `write_log`: copy modified blocks from cache to log. -/
def writeLog : K Unit := fun m => writeLogFrom start m.lh.blocks 0 m

/-- `commit`. -/
def commit : K Unit := do
  let m ← get
  if m.lh.n > 0 then
    writeLog start
    writeHead start
    installTrans start false
    setHeader empty
    writeHead start
  else pure ()

end Log

/-! ### Runs -/

/-- `Does p m d x m' ws`: on memory `m` and disk `d`, `p` returns `x`, leaves
memory `m'` and writes `ws`. -/
def Does {α : Type} (p : K α) (m : Mem) (d : Disk) (x : α) (m' : Mem)
    (ws : Writes Nat Block) : Prop :=
  DiskProg.exec (p m) d = ((x, m'), ws)

section Does

variable {α β : Type} {m m' m'' : Mem} {d : Disk} {vs : Writes Nat Block} {y : β} {x : α} {f : α → K β} {p : K α}

theorem does_pure (x : α) (m : Mem) (d : Disk) : Does (pure x) m d x m [] := rfl

theorem does_get (m : Mem) (d : Disk) : Does (get : K Mem) m d m m [] := rfl

theorem Does.bind {ws : Writes Nat Block} (hp : Does p m d x m' ws) (hf : Does (f x) m' (applyWrites ws d) y m'' vs) :
    Does (p >>= f) m d y m'' (ws ++ vs) := by
  have hstep : (p >>= f) m = (p m).bind fun r => f r.1 r.2 := rfl
  have hres : (p m).result d = (x, m') := congrArg fst hp
  have hws : (p m).writes d = ws := congrArg snd hp
  rw [Does, hstep, DiskProg.exec_bind]
  simp only [DiskProg.final, hres, hws]
  rw [show DiskProg.exec (f x m') (applyWrites ws d) = ((y, m''), vs) from hf]

/-- Sequencing after a program that writes nothing. -/
theorem Does.bind_nil
    (hp : Does p m d x m' []) (hf : Does (f x) m' d y m'' vs) :
    Does (p >>= f) m d y m'' vs := hp.bind hf

theorem does_setData (b : Nat) (x : Block) (m : Mem) (d : Disk) :
    Does (setData b x) m d () { m with buf := update m.buf b (some x) } [] := rfl

theorem does_bwrite {b : Nat} {x : Block} (h : m.buf b = some x) : Does (bwrite b) m d () m [(b, x)] := by
  simp [Does, bwrite, DiskProg.exec, h]

theorem does_setHeader (lh : LogHeader) (m : Mem) (d : Disk) :
    Does (setHeader lh) m d () { m with lh := lh } [] := rfl

theorem does_bunpin (b : Nat) (m : Mem) (d : Disk) :
    Does (bunpin b) m d () { m with refcnt := update m.refcnt b (m.refcnt b - 1) } [] := rfl

/-- `bread` in one equation for the cached and the uncached block. -/
theorem does_bread (b : Nat) (m : Mem) (d : Disk) :
    Does (bread b) m d ((m.buf b).getD (d b))
      { m with buf := update m.buf b (some ((m.buf b).getD (d b)))
               refcnt := update m.refcnt b (m.refcnt b + 1) } [] := by
  rcases h : m.buf b with - | x
  · simp [Does, bread, h, DiskProg.exec]
  · have hb : update m.buf b (some x) = m.buf := by rw [← h, update_eq_self]
    simp [Does, bread, h, hb]

end Does

/-! ### What one pass of each loop does -/

/-- The cached copy of `c`, if there is one, is `x`. -/
def Settled (m : Mem) (c : Nat) (x : Block) : Prop := m.buf c = none ∨ m.buf c = some x

/-- The block `c` is cached with contents `x` and cannot be recycled. -/
def Pinned (m : Mem) (c : Nat) (x : Block) : Prop := m.buf c = some x ∧ 1 ≤ m.refcnt c

/-- Memory `m'` differs from `m` at most in the buffers of `S`. -/
structure Frame (S : Set Nat) (m m' : Mem) : Prop where
  lh : m'.lh = m.lh
  buf : ∀ c, c ∉ S → m'.buf c = m.buf c
  refcnt : ∀ c, c ∉ S → m'.refcnt c = m.refcnt c

theorem Frame.refl (S : Set Nat) (m : Mem) : Frame S m m :=
  ⟨rfl, fun _ _ => rfl, fun _ _ => rfl⟩

variable {S : Set Nat} {m m' : Mem}

theorem Frame.trans {m'' : Mem} (h : Frame S m m') (h' : Frame S m' m'') : Frame S m m'' :=
  ⟨h'.lh.trans h.lh, fun c hc => (h'.buf c hc).trans (h.buf c hc),
    fun c hc => (h'.refcnt c hc).trans (h.refcnt c hc)⟩

theorem Frame.mono {T : Set Nat} (h : Frame S m m') (hST : S ⊆ T) : Frame T m m' :=
  ⟨h.lh, fun c hc => h.buf c fun hS => hc (hST hS),
    fun c hc => h.refcnt c fun hS => hc (hST hS)⟩

variable {c : Nat} {x : Block}

theorem Frame.settled (h : Frame S m m') (hc : c ∉ S) (hs : Settled m c x) : Settled m' c x := by
  rw [Settled, h.buf c hc]; exact hs

theorem Frame.pinned (h : Frame S m m') (hc : c ∉ S) (hs : Pinned m c x) : Pinned m' c x := by
  rw [Pinned, h.buf c hc, h.refcnt c hc]; exact hs

/-- A release leaves every other buffer alone, and its own buffer as it was or
recycled. -/
theorem does_brelse (b : Nat) (m : Mem) (d : Disk) :
    ∃ m', Does (brelse b) m d () m' [] ∧ Frame {b} m m' ∧
      m'.refcnt b = m.refcnt b - 1 ∧
      (m'.buf b = m.buf b ∨ (m.refcnt b ≤ 1 ∧ m'.buf b = none)) := by
  refine ⟨_, rfl, ⟨rfl, fun c hc => ?_, fun c hc => ?_⟩, ?_, ?_⟩
  · have hcb : c ≠ b := hc
    by_cases h : m.refcnt b - 1 = 0 ∧ m.recycle m.releases = true
    · simp [h, hcb]
    · simp [h]
  · exact update_of_ne (show c ≠ b from hc) _ _
  · exact update_self ..
  · by_cases h : m.refcnt b - 1 = 0 ∧ m.recycle m.releases = true
    · exact Or.inr ⟨by omega, by simp [h]⟩
    · exact Or.inl (by simp [h])

/-- A `bread` leaves every other buffer alone. -/
theorem does_bread_frame (b : Nat) (m : Mem) (d : Disk) :
    ∃ m', Does (bread b) m d ((m.buf b).getD (d b)) m' [] ∧ Frame {b} m m' ∧
      m'.refcnt b = m.refcnt b + 1 ∧ m'.buf b = some ((m.buf b).getD (d b)) := by
  refine ⟨_, does_bread b m d, ⟨rfl, fun c hc => ?_, fun c hc => ?_⟩, ?_, ?_⟩
  · exact update_of_ne (show c ≠ b from hc) _ _
  · exact update_of_ne (show c ≠ b from hc) _ _
  · exact update_self ..
  · exact update_self ..

theorem does_setData_frame (b : Nat) (x : Block) (m : Mem) (d : Disk) :
    ∃ m', Does (setData b x) m d () m' [] ∧ Frame {b} m m' ∧
      m'.refcnt b = m.refcnt b ∧ m'.buf b = some x :=
  ⟨_, does_setData b x m d,
    ⟨rfl, fun _ hc => update_of_ne hc _ _, fun _ _ => rfl⟩, rfl,
    update_self ..⟩

section Log

variable (start : Nat) {tail lim : Nat} {d : Disk} {x : Block} {m : Mem}

/-- One pass of `write_log`: the cached copy of `b` goes to log block `tail`. -/
theorem writeLogFrom_pass (d : Disk) {b : Nat} (tail : Nat) (bs : List Nat)
    (hpin : Pinned m b x) (hne : b ≠ start + tail + 1) :
    ∃ m', Frame {start + tail + 1} m m' ∧ Settled m' (start + tail + 1) x ∧
      ∀ {m'' vs}, Does (writeLogFrom start bs (tail + 1)) m'
          (update d (start + tail + 1) x) () m'' vs →
        Does (writeLogFrom start (b :: bs) tail) m d () m'' ((start + tail + 1, x) :: vs) := by
  obtain ⟨m₁, h₁, f₁, c₁, b₁⟩ := does_bread_frame (start + tail + 1) m d
  have hb₁ : m₁.buf b = some x := (f₁.buf b hne).trans hpin.1
  obtain ⟨m₂, h₂, f₂, c₂, b₂⟩ := does_bread_frame b m₁ d
  have hx : (m₁.buf b).getD (d b) = x := by rw [hb₁]; rfl
  rw [hx] at h₂ b₂
  obtain ⟨m₃, h₃, f₃, c₃, b₃⟩ := does_setData_frame (start + tail + 1) x m₂ d
  obtain ⟨m₄, h₄, f₄, c₄, b₄⟩ := does_brelse b m₃ (update d (start + tail + 1) x)
  obtain ⟨m₅, h₅, f₅, c₅, b₅⟩ := does_brelse (start + tail + 1) m₄
    (update d (start + tail + 1) x)
  -- the pin keeps the home buffer: its count never falls to zero
  have hcnt : m₃.refcnt b = m.refcnt b + 1 := by
    rw [f₃.refcnt b hne, c₂, f₁.refcnt b hne]
  have hb₄ : m₄.buf b = some x := by
    rcases b₄ with h | ⟨h, -⟩
    · rw [h, f₃.buf b hne, b₂]
    · have := hpin.2; omega
  refine ⟨m₅, ⟨?_, fun c hc => ?_, fun c hc => ?_⟩, ?_, fun {m'' vs} hrest => ?_⟩
  · rw [f₅.lh, f₄.lh, f₃.lh, f₂.lh, f₁.lh]
  · rw [f₅.buf c hc]
    by_cases hcb : c = b
    · rw [hcb, hb₄, hpin.1]
    · rw [f₄.buf c hcb, f₃.buf c hc, f₂.buf c hcb, f₁.buf c hc]
  · rw [f₅.refcnt c hc]
    by_cases hcb : c = b
    · rw [hcb, c₄, hcnt]; rfl
    · rw [f₄.refcnt c hcb, f₃.refcnt c hc, f₂.refcnt c hcb, f₁.refcnt c hc]
  · rcases b₅ with h | ⟨-, h⟩
    · exact Or.inr (by rw [h, f₄.buf _ (Ne.symm hne), b₃])
    · exact Or.inl h
  · exact h₁.bind_nil (h₂.bind_nil (h₃.bind_nil ((does_bwrite b₃).bind
      (h₄.bind_nil (h₅.bind_nil hrest)))))

/-- One pass of `install_trans`: log block `tail` goes to its home block `b`. -/
theorem installTransFrom_pass (rec : Bool) (b : Nat)
    (bs : List Nat) (hset : Settled m (start + tail + 1) x) (hd : d (start + tail + 1) = x) :
    ∃ m', Frame {start + tail + 1, b} m m' ∧
      ∀ {m'' vs}, Does (installTransFrom start rec bs (tail + 1)) m' (update d b x) () m'' vs →
        Does (installTransFrom start rec (b :: bs) tail) m d () m'' ((b, x) :: vs) := by
  obtain ⟨m₁, h₁, f₁, c₁, b₁⟩ := does_bread_frame (start + tail + 1) m d
  have hx : (m.buf (start + tail + 1)).getD (d (start + tail + 1)) = x := by
    rcases hset with h | h <;> simp [h, hd]
  rw [hx] at h₁
  obtain ⟨m₂, h₂, f₂, c₂, b₂⟩ := does_bread_frame b m₁ d
  obtain ⟨m₃, h₃, f₃, c₃, b₃⟩ := does_setData_frame b x m₂ d
  obtain ⟨m₄, h₄, f₄⟩ : ∃ m₄, Does (if rec then pure () else bunpin b) m₃ (update d b x) () m₄ []
      ∧ Frame {b} m₃ m₄ := by
    cases rec with
    | true => exact ⟨m₃, does_pure () m₃ _, Frame.refl _ _⟩
    | false =>
      exact ⟨_, does_bunpin b m₃ _,
        ⟨rfl, fun _ _ => rfl, fun _ hc => update_of_ne hc _ _⟩⟩
  obtain ⟨m₅, h₅, f₅, -, -⟩ := does_brelse (start + tail + 1) m₄ (update d b x)
  obtain ⟨m₆, h₆, f₆, -, -⟩ := does_brelse b m₅ (update d b x)
  have hl : ({start + tail + 1} : Set Nat) ⊆ {start + tail + 1, b} := by simp
  have hr : ({b} : Set Nat) ⊆ {start + tail + 1, b} := by simp
  refine ⟨m₆, ?_, fun {m'' vs} hrest => ?_⟩
  · exact ((((((f₁.mono hl).trans (f₂.mono hr)).trans (f₃.mono hr)).trans (f₄.mono hr)).trans
      (f₅.mono hl)).trans (f₆.mono hr))
  · exact h₁.bind_nil (h₂.bind_nil (h₃.bind_nil ((does_bwrite b₃).bind
      (h₄.bind_nil (h₅.bind_nil (h₆.bind_nil hrest))))))

/-! ### The writes of whole functions -/

/-- The writes of `write_log` for the transaction `t`, from index `tail` on. -/
def logWrites : Nat → Writes Nat Block → Writes Nat Block
  | _, [] => []
  | tail, w :: t => (start + tail + 1, w.2) :: logWrites (tail + 1) t

/-- The blocks of `t` are not among the first `lim` log blocks. -/
def Clear (lim : Nat) (t : Writes Nat Block) : Prop :=
  ∀ w ∈ t, w.1 ≤ start ∨ start + lim < w.1

theorem writeLogFrom_does (t : Writes Nat Block) (tail : Nat)
    (hlim : tail + t.length ≤ lim) (hpin : ∀ w ∈ t, Pinned m w.1 w.2)
    (hclear : Clear start lim t) :
    ∃ m', Does (writeLogFrom start (t.map fst) tail) m d () m' (logWrites start tail t) ∧
      Frame {c | start + tail < c ∧ c ≤ start + lim} m m' ∧
      ∀ i (h : i < t.length), Settled m' (start + (tail + i) + 1) t[i].2 := by
  induction t generalizing m d tail with
  | nil => exact ⟨m, does_pure () m d, Frame.refl _ _, fun i h => absurd h (by simp)⟩
  | cons w t ih =>
    simp only [List.length_cons] at hlim
    have hw := hclear w (by simp)
    obtain ⟨m₁, f₁, s₁, hstep⟩ := writeLogFrom_pass start d tail (t.map fst)
      (hpin w (by simp)) (by omega)
    have hpin₁ : ∀ v ∈ t, Pinned m₁ v.1 v.2 := fun v hv => by
      have hc := hclear v (by simp [hv])
      refine f₁.pinned (show v.1 ≠ start + tail + 1 by omega) (hpin v (by simp [hv]))
    obtain ⟨m₂, hd₂, f₂, s₂⟩ := ih (m := m₁) (d := update d (start + tail + 1) w.2) (tail + 1)
      (by omega) hpin₁ (fun v hv => hclear v (by simp [hv]))
    refine ⟨m₂, hstep hd₂, ?_, fun i hi => ?_⟩
    · refine (f₁.mono fun c hc => ?_).trans (f₂.mono fun c hc => ?_)
      · have hc' : c = start + tail + 1 := hc
        exact ⟨by omega, by omega⟩
      · exact ⟨by have := hc.1; omega, hc.2⟩
    · cases i with
      | zero => exact f₂.settled (fun hc => by have := hc.1; omega) s₁
      | succ i =>
        have h := s₂ i (by simpa using hi)
        rwa [show tail + 1 + i = tail + (i + 1) by omega] at h

theorem installTransFrom_does (rec : Bool) (t : Writes Nat Block) (tail : Nat) (hlim : tail + t.length ≤ lim)
    (hset : ∀ i (h : i < t.length), Settled m (start + (tail + i) + 1) t[i].2)
    (hlog : ∀ i (h : i < t.length), d (start + (tail + i) + 1) = t[i].2)
    (hclear : Clear start lim t) :
    ∃ m', Does (installTransFrom start rec (t.map fst) tail) m d () m' t ∧
      m'.lh = m.lh := by
  induction t generalizing m d tail with
  | nil => exact ⟨m, does_pure () m d, rfl⟩
  | cons w t ih =>
    simp only [List.length_cons] at hlim
    have hw := hclear w (by simp)
    obtain ⟨m₁, f₁, hstep⟩ := installTransFrom_pass start rec w.1 (t.map fst)
      (hset 0 (by simp)) (hlog 0 (by simp))
    have hset₁ : ∀ i (h : i < t.length), Settled m₁ (start + (tail + 1 + i) + 1) t[i].2 := by
      intro i hi
      have h := hset (i + 1) (by simpa using hi)
      rw [show tail + (i + 1) = tail + 1 + i by omega] at h
      refine f₁.settled (fun hc => ?_) h
      rcases hc with hc | hc
      · omega
      · have : start + (tail + 1 + i) + 1 = w.1 := hc
        omega
    have hlog₁ : ∀ i (h : i < t.length),
        update d w.1 w.2 (start + (tail + 1 + i) + 1) = t[i].2 := by
      intro i hi
      have h := hlog (i + 1) (by simpa using hi)
      rw [show tail + (i + 1) = tail + 1 + i by omega] at h
      rw [update_of_ne (by omega)]
      exact h
    obtain ⟨m₂, hd₂, hlh⟩ := ih (m := m₁) (d := update d w.1 w.2) (tail + 1) (by omega)
      hset₁ hlog₁ (fun v hv => hclear v (by simp [hv]))
    exact ⟨m₂, hstep hd₂, hlh.trans f₁.lh⟩

theorem writeHead_does (m : Mem) (d : Disk) :
    ∃ hb m', Does (writeHead start) m d () m' [(start, m.lh.store hb)] ∧ Frame {start} m m' := by
  obtain ⟨m₁, h₁, f₁, c₁, -⟩ := does_bread_frame start m d
  obtain ⟨m₂, h₂, f₂, c₂, b₂⟩ := does_setData_frame start
    (m₁.lh.store ((m.buf start).getD (d start))) m₁ d
  obtain ⟨m₃, h₃, f₃, -, -⟩ := does_brelse start m₂
    (applyWrites [(start, m₁.lh.store ((m.buf start).getD (d start)))] d)
  refine ⟨(m.buf start).getD (d start), m₃, ?_, (f₁.trans f₂).trans f₃⟩
  rw [← f₁.lh]
  exact h₁.bind_nil ((does_get m₁ d).bind_nil (h₂.bind_nil ((does_bwrite b₂).bind h₃)))

variable {t : Writes Nat Block}

theorem mem_logWrites {w : Nat × Block}
    (h : w ∈ logWrites start tail t) : start + tail < w.1 ∧ w.1 ≤ start + tail + t.length := by
  induction t generalizing tail with
  | nil => cases h
  | cons v t ih =>
    rcases List.mem_cons.mp h with rfl | h
    · simp only [List.length_cons]; omega
    · have := ih h
      simp only [List.length_cons]; omega

/-- The log blocks after `write_log` hold the transaction's contents. -/
theorem applyWrites_logWrites_log (t : Writes Nat Block) (tail : Nat) (d : Disk) :
    ∀ i (h : i < t.length),
      applyWrites (logWrites start tail t) d (start + (tail + i) + 1) = t[i].2 := by
  induction t generalizing tail d with
  | nil => exact fun i h => absurd h (by simp)
  | cons w t ih =>
    intro i hi
    rw [logWrites, applyWrites_cons]
    cases i with
    | zero =>
      have hn : start + (tail + 0) + 1 ∉ (logWrites start (tail + 1) t).map fst := by
        intro hm
        obtain ⟨v, hv, he⟩ := List.mem_map.mp hm
        have := mem_logWrites start hv
        omega
      rw [applyWrites_of_notMem hn]
      simp
    | succ i =>
      have h := ih (tail + 1) (update d (start + tail + 1) w.2) i (by simpa using hi)
      rwa [show tail + 1 + i = tail + (i + 1) by omega] at h

/-- **The writes of `commit`**: the log copies, the header, the home blocks, the
empty header. -/
theorem commit_writes (d : Disk) (ht : t ≠ []) (hlh : m.lh.blocks = t.map fst) (hpin : ∀ w ∈ t, Pinned m w.1 w.2)
    (hclear : Clear start t.length t) :
    ∃ hb hb', DiskProg.writes (commit start m) d
      = logWrites start 0 t ++ ((start, m.lh.store hb) ::
          (t ++ [(start, empty.store hb')])) := by
  obtain ⟨m₁, h₁, f₁, s₁⟩ := writeLogFrom_does start (m := m) (d := d) t 0 (by simp) hpin hclear
  obtain ⟨hb, m₂, h₂, f₂⟩ := writeHead_does start m₁ (applyWrites (logWrites start 0 t) d)
  rw [f₁.lh] at h₂
  -- the log blocks are on disk, and what is cached of them agrees
  have hset : ∀ i (h : i < t.length), Settled m₂ (start + (0 + i) + 1) t[i].2 := fun i hi =>
    f₂.settled (show start + (0 + i) + 1 ≠ start by omega) (s₁ i hi)
  have hlog : ∀ i (h : i < t.length),
      applyWrites [(start, m.lh.store hb)] (applyWrites (logWrites start 0 t) d)
        (start + (0 + i) + 1) = t[i].2 := by
    intro i hi
    rw [applyWrites_of_notMem (by simp; omega), applyWrites_logWrites_log start t 0 d i hi]
  obtain ⟨m₃, h₃, -⟩ := installTransFrom_does start (m := m₂) false t 0 (by simp) hset hlog hclear
  have hlh₂ : m₂.lh.blocks = t.map fst := by rw [f₂.lh, f₁.lh, hlh]
  obtain ⟨hb', m₄, h₄, -⟩ := writeHead_does start { m₃ with lh := empty }
    (applyWrites t (applyWrites [(start, m.lh.store hb)] (applyWrites (logWrites start 0 t) d)))
  refine ⟨hb, hb', ?_⟩
  have hn : m.lh.n > 0 := by
    rw [n, hlh, List.length_map]
    exact List.length_pos_iff.mpr ht
  rw [← hlh] at h₁
  rw [← hlh₂] at h₃
  have hall : Does (commit start) m d () m₄
      (logWrites start 0 t ++ ([(start, m.lh.store hb)] ++
        (t ++ ([] ++ [(start, empty.store hb')])))) := by
    refine (does_get m d).bind_nil ?_
    rw [if_pos hn]
    exact Does.bind (p := writeLog start) h₁ (h₂.bind
      (Does.bind (p := installTrans start false) h₃ ((does_setHeader _ _ _).bind h₄)))
  exact congrArg snd hall

/-- An empty transaction writes nothing. -/
theorem commit_writes_nil (d : Disk) (hlh : m.lh.blocks = []) : DiskProg.writes (commit start m) d = [] := by
  have hn : ¬ m.lh.n > 0 := by simp [n, hlh]
  have hall : Does (commit start) m d () m [] := by
    refine (does_get m d).bind_nil ?_
    rw [if_neg hn]
    exact does_pure () m d
  exact congrArg snd hall

/-- **The writes of `recover_from_log`**, started on fresh memory: the home
blocks of the transaction that the log holds, then the empty header. -/
theorem recoverFromLog_writes (recycle : Nat → Bool) {lh : LogHeader} (hload : load (d start) = some lh)
    (hlh : lh.blocks = t.map fst)
    (hlog : ∀ i (h : i < t.length), d (start + i + 1) = t[i].2)
    (hclear : Clear start t.length t) :
    ∃ hb, DiskProg.writes (recoverFromLog start (Mem.boot recycle)) d
      = t ++ [(start, empty.store hb)] := by
  obtain ⟨m₁, h₁, f₁, -, -⟩ := does_bread_frame start (Mem.boot recycle) d
  obtain ⟨m₂, h₂, f₂, -, -⟩ := does_brelse start { m₁ with lh := lh } d
  have hhead : Does (readHead start) (Mem.boot recycle) d true m₂ [] := by
    refine h₁.bind_nil ?_
    have hd : ((Mem.boot recycle).buf start).getD (d start) = d start := rfl
    rw [hd, hload]
    exact (does_setHeader lh m₁ d).bind_nil (h₂.bind_nil (does_pure true m₂ d))
  -- nothing but the header block has been cached so far
  have hset : ∀ i (h : i < t.length), Settled m₂ (start + (0 + i) + 1) t[i].2 := fun i hi => by
    have hne : start + (0 + i) + 1 ≠ start := by omega
    exact Or.inl ((f₂.buf _ hne).trans (f₁.buf _ hne))
  obtain ⟨m₃, h₃, -⟩ := installTransFrom_does start (m := m₂) (d := d) true t 0 (by simp) hset
    (fun i hi => by rw [Nat.zero_add]; exact hlog i hi) hclear
  have hlh₂ : m₂.lh.blocks = t.map fst := by rw [f₂.lh, hlh]
  rw [← hlh₂] at h₃
  obtain ⟨hb, m₄, h₄, -⟩ := writeHead_does start { m₃ with lh := empty }
    (applyWrites t d)
  refine ⟨hb, ?_⟩
  have hall : Does (recoverFromLog start) (Mem.boot recycle) d () m₄
      (t ++ ([] ++ [(start, empty.store hb)])) := by
    refine hhead.bind_nil ?_
    exact Does.bind (p := installTrans start true) h₃ ((does_setHeader _ _ _).bind h₄)
  exact congrArg snd hall

end Log

end Xv6.LogDisk
