/-
Xv6/PipeSleep.lean

Who sleeps on a pipe, and who will wake them.

A process goes to sleep only when the pipe blocks it, and it has its `p->lock` from
before it releases `pi->lock` until it is SLEEPING, so nobody's `wakeup` passes it by in
between.  Later somebody changes the pipe, and has to call `wakeup` before they release
`pi->lock`: `Owes`.  A writer that finds itself killed in the middle of its loop does
not, and the readers stay asleep with its bytes in the pipe.  If no writer is killed
there, no sleeper is left behind.
-/
import Xv6.PipeFifo

namespace Xv6.Pipes

open Function List Machine
open Sched (Pipe PIPESIZE)

variable {n : Nat} {s s' : Sys n} {p q : Fin n} {ch : Chan}

/-- The process sleeps on the channel, or is about to and no `wakeup` sees it before. -/
def Dozes (s : Sys n) (q : Fin n) (ch : Chan) : Prop :=
  s.sleeping q = some ch ∨ ∃ f, s.pc q = .drowsy f ∧ f.chan = ch

/-- A process at `pc` will look at `q` in a call of `wakeup` for the channel. -/
def Owes : Pc n → Chan → Fin n → Prop
  | .wake ch ps _, ch', q => ch = ch' ∧ q ∈ ps
  | .loop (.write _ _ _) true, .nread, _ => True
  | .copy _ _ _, .nwrite, _ => True
  | _, _, _ => False

/-- The sleepers are blocked, or whoever has the lock will wake them. -/
structure Calm (s : Sys n) : Prop where
  served : ∀ q ch, Dozes s q ch → Blocks s.pipe ch ∨ ∃ p, s.lock = some p ∧ Owes (s.pc p) ch q
  due : ∀ q, (s.pc q).due = true → s.killed q = false ∧ s.pipe.readopen = true
  sleeping : ∀ q ch, s.sleeping q = some ch → ∃ f, s.pc q = .asleep f

theorem Pc.holds_of_due {pc : Pc n} (h : pc.due = true) : pc.holds = true := by
  cases pc with
  | loop f d => rfl
  | _ => cases h

namespace Calm

/-- If nobody else has the lock, then the sleepers depend on `p`. -/
theorem served_by (h : Calm s) (hlock : s.lock = some p ∨ s.lock = none) (hd : Dozes s q ch) :
    Blocks s.pipe ch ∨ s.lock = some p ∧ Owes (s.pc p) ch q := by
  refine (h.served q ch hd).imp id ?_
  rintro ⟨r, hr, howes⟩
  rcases hlock with hlock | hlock
  · obtain rfl : p = r := Option.some.inj (hlock.symm.trans hr)
    exact ⟨hr, howes⟩
  · rw [hlock] at hr
    cases hr

variable {pc pc₀ : Pc n}

section

variable (h : Calm s)

include h

/-- The process `p` moves and nobody goes to sleep. -/
theorem move (hpc : s'.pc = update s.pc p pc) (hsl : s'.sleeping = s.sleeping)
    (hkill : s'.killed = s.killed) (hnot : s.sleeping p = none) (hdrowsy : ∀ f, pc ≠ .drowsy f)
    (hopen : s'.pipe.readopen = s.pipe.readopen ∨ ∀ q, q ≠ p → (s.pc q).due = false)
    (hserved : ∀ q ch, q ≠ p → Dozes s q ch → Blocks s'.pipe ch ∨ ∃ p, s'.lock = some p ∧ Owes (s'.pc p) ch q)
    (hdue : pc.due = true → s.killed p = false ∧ s'.pipe.readopen = true) : Calm s' := by
  refine ⟨fun q ch hd => ?_, fun q hq => ?_, fun q ch hq => ?_⟩
  · have hqp : q ≠ p := by
      rintro rfl
      rcases hd with hd | ⟨f, hf, -⟩
      · rw [hsl, hnot] at hd
        cases hd
      · rw [hpc, update_self] at hf
        exact hdrowsy f hf
    refine hserved q ch hqp ?_
    rwa [Dozes, hsl, hpc, update_of_ne hqp] at hd
  · rw [hkill]
    rw [hpc] at hq
    rcases eq_or_ne q p with rfl | hqp
    · rw [update_self] at hq
      exact hdue hq
    rw [update_of_ne hqp] at hq
    obtain ⟨hk, ho⟩ := h.due q hq
    rcases hopen with hopen | hopen
    · exact ⟨hk, hopen.trans ho⟩
    · rw [hopen q hqp] at hq
      cases hq
  · rw [hsl] at hq
    have hqp : q ≠ p := by
      rintro rfl
      rw [hnot] at hq
      cases hq
    obtain ⟨f, hf⟩ := h.sleeping q ch hq
    exact ⟨f, by rw [hpc, update_of_ne hqp, hf]⟩

theorem awake (hpc : ∀ f, s.pc p ≠ .asleep f) : s.sleeping p = none := by
  rcases hs : s.sleeping p with - | ch
  · rfl
  · obtain ⟨f, hf⟩ := h.sleeping p ch hs
    exact absurd hf (hpc f)

section

variable (hinv : Inv s)

include hinv

/-- A process that has the lock keeps it. -/
theorem keep (hp : s.pc p = pc₀) (hold : pc₀.holds = true) (hnew : pc.holds = true)
    (hpc : s'.pc = update s.pc p pc) (hlock : s'.lock = s.lock) (hsl : s'.sleeping = s.sleeping)
    (hkill : s'.killed = s.killed) (hopen : s'.pipe.readopen = s.pipe.readopen)
    (howes : ∀ q ch, q ≠ p → Blocks s.pipe ch ∨ Owes pc₀ ch q → Blocks s'.pipe ch ∨ Owes pc ch q)
    (hdue : pc.due = true → s.killed p = false ∧ s'.pipe.readopen = true) : Calm s' := by
  subst hp
  have hmine : s.lock = some p := (hinv.holder p).mp hold
  have hnot : s.sleeping p = none := h.awake fun f hf => by rw [hf] at hold; cases hold
  refine h.move hpc hsl hkill hnot (fun f hf => by rw [hf] at hnew; cases hnew) (.inl hopen) ?_ hdue
  intro q ch hqp hd
  refine (howes q ch hqp ((h.served_by (.inl hmine) hd).imp id And.right)).imp id fun ho => ?_
  exact ⟨p, hlock.trans hmine, by rwa [hpc, update_self]⟩

/-- A process that owes nothing releases the lock. -/
theorem release (hp : s.pc p = pc₀) (hold : pc₀.holds = true)
    (hpc : s'.pc = update s.pc p pc) (hsl : s'.sleeping = s.sleeping) (hkill : s'.killed = s.killed)
    (hpipe : s'.pipe = s.pipe) (hdrowsy : ∀ f, pc ≠ .drowsy f) (hdue : pc.due = false)
    (howes : ∀ q ch, ¬ Owes pc₀ ch q) : Calm s' := by
  subst hp
  have hmine : s.lock = some p := (hinv.holder p).mp hold
  have hnot : s.sleeping p = none := h.awake fun f hf => by rw [hf] at hold; cases hold
  refine h.move hpc hsl hkill hnot hdrowsy (.inl (by rw [hpipe])) ?_ fun hc => by rw [hdue] at hc; cases hc
  intro q ch hqp hd
  rw [hpipe]
  exact (h.served_by (.inl hmine) hd).imp id fun ho => absurd ho.2 (howes q ch)

/-- A process takes the lock. -/
theorem acquire (hfree : s.lock = none) (hold : ∀ f, s.pc p ≠ .asleep f) (hnew : pc.holds = true)
    (hpc : s'.pc = update s.pc p pc) (hlock : s'.lock = some p) (hsl : s'.sleeping = s.sleeping)
    (hkill : s'.killed = s.killed) (hdue : pc.due = false)
    (howes : ∀ q ch, Blocks s.pipe ch → Blocks s'.pipe ch ∨ Owes pc ch q) : Calm s' := by
  have hnone : ∀ q, q ≠ p → (s.pc q).due = false := by
    intro q _
    rw [Bool.eq_false_iff]
    intro hq
    have := (hinv.holder q).mp (Pc.holds_of_due hq)
    rw [hfree] at this
    cases this
  refine h.move hpc hsl hkill (h.awake hold) (fun f hf => by rw [hf] at hnew; cases hnew) (.inr hnone) ?_
    fun hc => by rw [hdue] at hc; cases hc
  intro q ch hqp hd
  rcases h.served_by (p := p) (.inr hfree) hd with hb | ho
  · exact (howes q ch hb).imp id fun ho => ⟨p, hlock, by rwa [hpc, update_self]⟩
  · rw [hfree] at ho
    cases ho.1

/-- The process that holds the lock is not the one that moves. -/
theorem served_apart (hold : (s.pc p).holds = false)
    (hpc : s'.pc = update s.pc p pc) (hlock : s'.lock = s.lock) (hpipe : s'.pipe = s.pipe) (hd : Dozes s q ch) :
    Blocks s'.pipe ch ∨ ∃ p, s'.lock = some p ∧ Owes (s'.pc p) ch q := by
  rw [hpipe, hlock, hpc]
  refine (h.served q ch hd).imp id ?_
  rintro ⟨r, hr, howes⟩
  have hrp : r ≠ p := by
    rintro rfl
    rw [(hinv.holder r).mpr hr] at hold
    cases hold
  exact ⟨r, hr, by rwa [update_of_ne hrp]⟩

/-- A process does not have the lock, before and after. -/
theorem apart (hold : (s.pc p).holds = false)
    (hpc : s'.pc = update s.pc p pc) (hlock : s'.lock = s.lock) (hsl : s'.sleeping = s.sleeping)
    (hkill : s'.killed = s.killed) (hpipe : s'.pipe = s.pipe) (hnot : s.sleeping p = none)
    (hdrowsy : ∀ f, pc ≠ .drowsy f) (hdue : pc.due = false) : Calm s' :=
  h.move hpc hsl hkill hnot hdrowsy (.inl (by rw [hpipe]))
    (fun _ _ _ hd => h.served_apart hinv hold hpc hlock hpipe hd)
    fun hc => by rw [hdue] at hc; cases hc

end

end

variable {f : Frame}

section

variable (h : Calm s)

include h

/-- A process goes to sleep: it found the pipe as it is now. -/
theorem unlock (hinv : Inv s) (hpc : s.pc p = .unlock f) : Calm ((s.setLock none).goto p (.drowsy f)) := by
  have hmine : s.lock = some p := (hinv.holder p).mp (by rw [hpc]; rfl)
  have hblocks : Blocks s.pipe f.chan := by
    have := hinv.known p
    rwa [hpc] at this
  refine ⟨fun q ch hd => .inl ?_, fun q hq => ?_, fun q ch hq => ?_⟩
  · rcases eq_or_ne q p with rfl | hqp
    · rcases hd with hd | ⟨g, hg, rfl⟩
      · obtain ⟨g, hg⟩ := h.sleeping q ch hd
        rw [hpc] at hg
        cases hg
      · rw [Sys.goto_pc, update_self] at hg
        cases hg
        exact hblocks
    · have hd' : Dozes s q ch := by rwa [Dozes, Sys.goto_pc, update_of_ne hqp] at hd
      rcases h.served_by (.inl hmine) hd' with hb | ho
      · exact hb
      · rw [hpc] at ho
        cases ho.2
  · rw [Sys.goto_pc] at hq
    by_cases hqp : q = p
    · rw [hqp, update_self] at hq
      cases hq
    · rw [update_of_ne hqp] at hq
      exact h.due q hq
  · obtain ⟨g, hg⟩ := h.sleeping q ch hq
    refine ⟨g, ?_⟩
    rw [Sys.goto_pc, update_of_ne]
    · exact hg
    · rintro rfl
      rw [hpc] at hg
      cases hg

/-- A process is SLEEPING on the channel on which it dozed. -/
theorem doze (hinv : Inv s) (hpc : s.pc p = .drowsy f) : Calm ((s.setSleeping p (some f.chan)).goto p (.asleep f)) := by
  refine ⟨fun q ch hd => ?_, fun q hq => ?_, fun q ch hq => ?_⟩
  · refine h.served_apart hinv (by rw [hpc]; rfl) rfl rfl rfl ?_
    rcases eq_or_ne q p with rfl | hqp
    · rcases hd with hd | ⟨g, hg, -⟩
      · simp only [Sys.goto_sleeping, Sys.setSleeping_sleeping, update_self] at hd
        exact .inr ⟨f, hpc, Option.some.inj hd⟩
      · rw [Sys.goto_pc, update_self] at hg
        cases hg
    · simpa [Dozes, hqp] using hd
  · rw [Sys.goto_pc] at hq
    by_cases hqp : q = p
    · rw [hqp, update_self] at hq
      cases hq
    · rw [update_of_ne hqp] at hq
      exact h.due q hq
  · by_cases hqp : q = p
    · exact ⟨f, by rw [hqp, Sys.goto_pc, update_self]⟩
    · simp only [Sys.goto_sleeping, Sys.setSleeping_sleeping, Sys.goto_pc, update_of_ne hqp] at hq ⊢
      exact h.sleeping q ch hq

/-- A sleeper is made RUNNABLE. -/
theorem rouse (q : Fin n) : Calm (s.setSleeping q none) := by
  have hsub : ∀ r ch, (s.setSleeping q none).sleeping r = some ch → s.sleeping r = some ch := by
    intro r ch hr
    rw [Sys.setSleeping_sleeping] at hr
    by_cases hrq : r = q
    · rw [hrq, update_self] at hr
      cases hr
    · rwa [update_of_ne hrq] at hr
  exact ⟨fun r ch hd => h.served r ch (hd.imp (hsub r ch) id), h.due,
    fun r ch hr => h.sleeping r ch (hsub r ch hr)⟩

/-- The next process of the table is not asleep on the channel, or not any more. -/
theorem next (hinv : Inv s) {qs : List (Fin n)} {k : After} (hpc : s.pc p = .wake ch (q :: qs) k)
    (hq : q = p ∨ ¬ Dozes s q ch) : Calm (s.goto p (.wake ch qs k)) := by
  have hmine : s.lock = some p := (hinv.holder p).mp (by rw [hpc]; rfl)
  have hnot : s.sleeping p = none := h.awake (by rw [hpc]; exact nofun)
  refine h.move rfl rfl rfl hnot nofun (.inl rfl) (fun r ch' hrp hd => ?_) nofun
  refine (h.served_by (.inl hmine) hd).imp id fun ho => ⟨p, hmine, ?_⟩
  rw [Sys.goto_pc, update_self]
  rw [hpc] at ho
  obtain ⟨-, rfl, hmem⟩ := ho
  refine ⟨rfl, ?_⟩
  rcases mem_cons.mp hmem with rfl | hmem
  · rcases hq with rfl | hq
    · exact absurd rfl hrp
    · exact absurd hd hq
  · exact hmem

/-- `kill`, of a process that is not in the middle of writing. -/
theorem kill (hdue : (s.pc p).due = false) : Calm (s.kill p) := by
  have h' := h.rouse p
  refine ⟨h'.served, fun q hq => ?_, h'.sleeping⟩
  have hqp : q ≠ p := by
    rintro rfl
    rw [Sys.kill_pc, hdue] at hq
    cases hq
  rw [Sys.kill_killed, update_of_ne hqp]
  exact h.due q hq

/-- **A step of a process** leaves no sleeper behind. -/
theorem pstep (hinv : Inv s) (hs : PStep s p s') : Calm s' := by
  cases hs with
  | write _ _ hpc | read _ _ hpc | shut _ hpc =>
    exact h.apart hinv (by rw [hpc]; rfl) rfl rfl rfl rfl rfl (h.awake (by rw [hpc]; exact nofun)) nofun rfl
  | lock f hpc hl =>
    refine h.acquire hinv hl ?_ rfl rfl rfl rfl rfl (by cases f <;> rfl) fun q ch hb => .inl hb
    rcases hpc with hpc | hpc
    · rw [hpc]
      exact nofun
    · rw [hpc]
      exact nofun
  | refuse src m i d hpc hi hwhy =>
    refine h.release hinv hpc rfl rfl rfl rfl rfl nofun rfl fun q ch ho => ?_
    cases d with
    | false => cases ho
    | true =>
      -- the writer has bytes to announce, so nobody has killed it
      obtain ⟨hk, hopen⟩ := h.due p (by rw [hpc]; simpa [Pc.due] using hi)
      rcases hwhy with hwhy | hwhy
      · rw [hopen] at hwhy
        cases hwhy
      · rw [hk] at hwhy
        cases hwhy
  | full src m i d hpc hopen hfull =>
    refine h.keep hinv hpc rfl rfl rfl rfl rfl rfl rfl (fun q ch _ hb => ?_) nofun
    cases ch with
    | nread => exact .inr ⟨rfl, mem_finRange q⟩
    | nwrite => exact .inl ⟨hfull, hopen⟩
  | stop src m i d hpc =>
    refine h.keep hinv hpc rfl rfl rfl rfl rfl rfl rfl (fun q ch _ hb => ?_) nofun
    cases ch with
    | nread => exact .inr ⟨rfl, mem_finRange q⟩
    | nwrite =>
      exact .inl (hb.resolve_right (by cases d <;> exact id))
  | put src m i d ch hpc hopen hkill hfull hch =>
    refine h.keep hinv hpc rfl rfl rfl rfl rfl rfl rfl (fun q ch _ hb => ?_) fun _ => ⟨hkill, hopen⟩
    cases ch with
    | nread => exact .inr trivial
    | nwrite =>
      -- nobody waits for room when there is some
      exact absurd (hb.resolve_right (by cases d <;> exact id)).1 hfull
  | killed dst m d hpc =>
    refine h.release hinv hpc rfl rfl rfl rfl rfl nofun rfl fun q ch ho => ?_
    exact ho
  | wait _ _ _ hpc | start _ _ _ hpc | own _ hpc =>
    refine h.keep hinv hpc rfl rfl rfl rfl rfl rfl rfl (fun q ch _ hb => ?_) nofun
    exact .inl (hb.resolve_right id)
  | take dst m i pc hpc hne hpc' =>
    have hrest : ∀ (q : Fin n) ch, Blocks s.pipe ch ∨ Owes (.copy dst m i) ch q → ch = .nwrite := by
      intro q ch hb
      cases ch with
      | nread => exact absurd (hb.resolve_right id).1 hne
      | nwrite => rfl
    rcases hpc' with rfl | rfl
    · refine h.keep hinv hpc rfl rfl rfl rfl rfl rfl rfl (fun q ch _ hb => ?_) nofun
      rw [hrest q ch hb]
      exact .inr trivial
    · refine h.keep hinv hpc rfl rfl rfl rfl rfl rfl rfl (fun q ch _ hb => ?_) nofun
      rw [hrest q ch hb]
      exact .inr ⟨rfl, mem_finRange q⟩
  | copied dst m i hpc =>
    refine h.keep hinv hpc rfl rfl rfl rfl rfl rfl rfl (fun q ch _ hb => ?_) nofun
    cases ch with
    | nread => exact .inl (hb.resolve_right id)
    | nwrite => exact .inr ⟨rfl, mem_finRange q⟩
  | skip ch q qs k hpc hskip =>
    refine h.next hinv hpc (hskip.imp id ?_)
    rintro ⟨hself, hsl⟩ (hd | ⟨f, hf, -⟩)
    · exact hsl hd
    · rw [hf] at hself
      cases hself
  | rouse ch q qs k hpc hne hself hsl =>
    have hinv' : Inv (s.setSleeping q none) := ⟨hinv.holder, hinv.known, hinv.queue⟩
    refine (h.rouse q).next hinv' hpc (.inr ?_)
    rintro (hd | ⟨f, hf, -⟩)
    · simp at hd
    · rw [show s.pc q = .drowsy f from hf] at hself
      cases hself
  | sleep ch f hpc =>
    refine h.keep hinv hpc rfl rfl rfl rfl rfl rfl rfl (fun q ch _ hb => ?_) nofun
    exact .inl (hb.resolve_right fun ho => not_mem_nil ho.2)
  | ret ch _ _ hpc | close ch hpc =>
    refine h.release hinv hpc rfl rfl rfl rfl rfl nofun rfl fun q ch ho => ?_
    exact not_mem_nil ho.2
  | unlock f hpc => exact h.unlock hinv hpc
  | doze f hpc => exact h.doze hinv hpc
  | back f hpc hsl => exact h.apart hinv (by rw [hpc]; rfl) rfl rfl rfl rfl rfl hsl nofun rfl
  | closeLock w hpc hl =>
    refine h.acquire hinv hl (by rw [hpc]; exact nofun) rfl rfl rfl rfl rfl rfl fun q ch hb => ?_
    cases w with
    | true =>
      cases ch with
      | nread => exact .inr ⟨rfl, mem_finRange q⟩
      | nwrite => exact .inl hb
    | false =>
      cases ch with
      | nread => exact .inl hb
      | nwrite => exact .inr ⟨rfl, mem_finRange q⟩

end

theorem new (data : Nat → UInt8) : Calm (pipealloc data : Sys n) := by
  refine ⟨fun q ch hd => ?_, nofun, nofun⟩
  rcases hd with hd | ⟨f, hf, -⟩
  · cases hd
  · cases hf

end Calm

/-! ### Every run -/

/-- `kill` does not hit a writer that has put bytes in since it called `wakeup` last and has more
to put in. -/
def Spares : Sys n → Act n → Prop
  | s, .kill p => (s.pc p).due = false
  | _, _ => True

instance : ∀ (s : Sys n) (a : Act n), Decidable (Spares s a)
  | s, .kill p => inferInstanceAs (Decidable ((s.pc p).due = false))
  | _, .pipewrite _ _ _ | _, .piperead _ _ _ | _, .pipeclose _ _ | _, .step _ => isTrue trivial

theorem calm_step {a : Act n} (h : Inv s ∧ Calm s) (ha : Spares s a) (hs : step s a = .ok s') : Inv s' ∧ Calm s' := by
  refine ⟨h.1.step hs, ?_⟩
  obtain ⟨p, hp⟩ | ⟨p, rfl, -, rfl⟩ := step_cases hs
  · exact h.2.pstep h.1 hp
  · exact h.2.kill ha

/-- A reader goes to sleep, and a writer puts in the first of two bytes. -/
def sleepThenPut : List (Act 2) :=
  .piperead 1 (fun _ => true) 1 :: replicate 5 (.step 1) ++
    .pipewrite 0 (fun _ => some 7) 2 :: replicate 2 (.step 0)

end Xv6.Pipes
