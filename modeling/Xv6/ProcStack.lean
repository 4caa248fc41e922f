/-
Xv6/ProcStack.lean

Locks and stacks, step by step.

A lock that a process takes before it switches is released by the thread that
the CPU switches to.  What makes this right is that a thread on no CPU has, in
its own view, exactly its process's lock (`Stacks.away`, `Stacks.busy`), and so
has the thread that goes on in its place.
-/
import Xv6.ProcInv

namespace Xv6.Sched

open Function Option Priv

variable {n : Nat} {C : Type}

/-! ### Locks: every step -/

section LockSteps

variable {s s' : Sys n C} {G G' : Thread n C → Priv n} {c : C} {l : Lock n} {p q : Fin n} {c' : C}

theorem Stacks.thr_inj (h : Stacks s G) (heq : s.thr c = s.thr c') : c = c' := by
  rcases hc : s.cur c with - | p
  · rw [thr_of_idle hc] at heq
    exact (idle_of_thr heq.symm).2
  · rw [thr_of_cur hc] at heq
    exact h.inj c c' p hc (cur_of_thr heq.symm)

/-- Each CPU has the locks that it had. -/
theorem Locks.of_same (h : Locks s G) (hlock : s'.lock = s.lock) (hnoff : s'.noff = s.noff)
    (hheld : ∀ c, (G' (s'.thr c)).held = (G (s.thr c)).held) : Locks s' G' := by
  constructor
  · intro c l
    rw [hheld, hlock]
    exact h.held c l
  · intro c
    rw [hheld]
    exact h.nodup c
  · intro c
    rw [hheld, hnoff]
    exact h.noff c

theorem Locks.congr (h : Locks s G) (hcur : s'.cur = s.cur) (hlock : s'.lock = s.lock) (hnoff : s'.noff = s.noff)
    (hheld : ∀ c, (G' (s.thr c)).held = (G (s.thr c)).held) : Locks s' G' :=
  h.of_same hlock hnoff fun c => by rw [Sys.thr, hcur]; exact hheld c

variable [DecidableEq C] {g : Priv n}

/-- A field of the notes that a thread does not change. -/
theorem update_field {α : Type} (f : Priv n → α) {t : Thread n C} (h : f g = f (G t))
    (t' : Thread n C) : f (update G t g t') = f (G t') := by
  by_cases ht : t' = t
  · rw [ht, update_self, h]
  · rw [update_of_ne ht]

/-- The notes of the other CPUs' threads are not touched. -/
theorem Stacks.update_other (h : Stacks s G) (hc' : c' ≠ c) (g : Priv n) :
    update G (s.thr c) g (s.thr c') = G (s.thr c') :=
  update_of_ne (fun heq => hc' (h.thr_inj heq)) ..

/-- A CPU takes or releases locks that no other CPU has. -/
theorem Locks.change (h : Locks s G) (hs : Stacks s G) (hcur : s'.cur = s.cur)
    (hheld : ∀ l, l ∈ g.held ↔ s'.lock l = some c) (hnodup : g.held.Nodup) (hnoff : s'.noff c = g.held.length)
    (hlock : ∀ c' l, c' ≠ c → (s'.lock l = some c' ↔ s.lock l = some c'))
    (hother : ∀ c', c' ≠ c → s'.noff c' = s.noff c') : Locks s' (update G (s.thr c) g) := by
  have hthr : ∀ c, s'.thr c = s.thr c := fun c => by rw [Sys.thr, Sys.thr, hcur]
  have hat : ∀ c', (∀ l, l ∈ (update G (s.thr c) g (s.thr c')).held ↔ s'.lock l = some c') ∧
      (update G (s.thr c) g (s.thr c')).held.Nodup ∧ s'.noff c' = (update G (s.thr c) g (s.thr c')).held.length := by
    intro c'
    rcases eq_or_ne c' c with rfl | hc'
    · rw [update_self]
      exact ⟨hheld, hnodup, hnoff⟩
    · rw [hs.update_other hc', hother c' hc']
      exact ⟨fun l => (h.held c' l).trans (hlock c' l hc').symm, h.nodup c', h.noff c'⟩
  exact ⟨fun c' => hthr c' ▸ (hat c').1, fun c' => hthr c' ▸ (hat c').2.1, fun c' => hthr c' ▸ (hat c').2.2⟩

theorem Locks.acquire (h : Locks s G) (hs : Stacks s G) (hl : s.lock l = none) :
    Locks ((s.setLock l (some c)).setNoff c (s.noff c + 1))
      (update G (s.thr c) ((G (s.thr c)).setHeld (l :: (G (s.thr c)).held))) := by
  have hnot : l ∉ (G (s.thr c)).held := by
    rw [h.held c l, hl]
    exact nofun
  apply h.change hs
  · rfl
  · intro l'
    by_cases hl' : l' = l
    · simp [hl']
    · simp [hl', h.held c l']
  · exact List.nodup_cons.mpr ⟨hnot, h.nodup c⟩
  · simp [h.noff c]
  · intro c' l' hc'
    by_cases hl' : l' = l
    · simp [hl', hl, Ne.symm hc']
    · simp [hl']
  · exact fun c' hc' => update_of_ne hc' ..

theorem Locks.release (h : Locks s G) (hs : Stacks s G) (hl : l ∈ (G (s.thr c)).held)
    (hg : g.held = (G (s.thr c)).held.erase l) :
    Locks ((s.setLock l none).setNoff c (s.noff c - 1)) (update G (s.thr c) g) := by
  have hlc : s.lock l = some c := (h.held c l).mp hl
  apply h.change hs
  · rfl
  · intro l'
    rw [hg, (h.nodup c).mem_erase_iff, h.held c l']
    by_cases hl' : l' = l <;> simp [hl']
  · rw [hg]
    exact (h.nodup c).erase l
  · simp [hg, List.length_erase_of_mem hl, h.noff c]
  · intro c' l' hc'
    by_cases hl' : l' = l
    · simp [hl', hlc, Ne.symm hc']
    · simp [hl']
  · exact fun c' hc' => update_of_ne hc' ..

end LockSteps

/-! ### Stacks: every step -/

section StackSteps

variable {s s' : Sys n C} {G G' : Thread n C → Priv n} {c : C} {l : Lock n} {p q : Fin n} {x : Phase n}

/-- A scheduler that has a process keeps its lock and the process RUNNING. -/
theorem SchedAt.mono (h : SchedAt s c x)
    (hlock : ∀ p, x ≠ .idle → s.lock (.proc p) = some c → s'.lock (.proc p) = some c)
    (hrun : ∀ p, s.lock (.proc p) = some c → s.k.state p = .running → (∀ c', s.cur c' ≠ some p) →
      s'.k.state p = .running ∧ ∀ c', s'.cur c' ≠ some p) : SchedAt s' c x := by
  cases x with
  | idle => trivial
  | picked r | go r => exact ⟨hlock r nofun h.1, hrun r h.1 h.2.1 h.2.2⟩
  | back r => exact hlock r nofun h
  | _ => exact h

theorem ProcAt.mono (h : ProcAt s c p x) (hlock : x ≠ .run → s.lock (.proc p) = some c → s'.lock (.proc p) = some c)
    (hrun : s'.k.state p = .running ↔ s.k.state p = .running) : ProcAt s' c p x := by
  cases x with
  | run => exact hrun.mpr h
  | leave => exact ⟨hlock nofun h.1, hrun.not.mpr h.2⟩
  | _ => exact h

section

variable (h : Stacks s G)

include h

/-- A process whose lock another thread has, and which is not RUNNING, is on no CPU. -/
theorem Stacks.off_cpu (hq : s.lock (.proc q) = some c) (hself : s.cur c ≠ some q)
    (hst : s.k.state q ≠ .running) (c' : C) : s.cur c' ≠ some q := by
  intro hc'
  have hat := h.proc c' q hc'
  rcases hph : (G (.proc q)).phase with _ | _ | _ | r | r | r <;> rw [hph] at hat
  · exact hst hat
  · have hcc : some c' = some c := hat.1.symm.trans hq
    exact hself (some.inj hcc ▸ hc')
  all_goals exact hat

/-- A process on whose stack a CPU is, and which does not have its own lock, is RUNNING. -/
theorem Stacks.on_cpu (hc : s.cur c = some p) (hp : s.lock (.proc p) ≠ some c) :
    (G (.proc p)).phase = .run ∧ s.k.state p = .running := by
  have hat := h.proc c p hc
  rcases hph : (G (.proc p)).phase with _ | _ | _ | r | r | r <;> rw [hph] at hat
  · exact ⟨rfl, hat⟩
  · exact absurd hat.1 hp
  all_goals exact hat.elim

theorem Stacks.running_of_run (hc : s.cur c = some p) (hrun : (G (.proc p)).phase = .run) : s.k.state p = .running := by
  have hat := h.proc c p hc
  rw [hrun] at hat
  exact hat

theorem Stacks.congr (hcur : s'.cur = s.cur) (hcproc : s'.cproc = s.cproc)
    (hstate : ∀ p, s'.k.state p = .running → s.k.state p = .running)
    (hsched : ∀ c, s.cur c = none → SchedAt s c (G (.sched c)).phase → SchedAt s' c (G (.sched c)).phase)
    (hproc : ∀ c p, s.cur c = some p → ProcAt s c p (G (.proc p)).phase → ProcAt s' c p (G (.proc p)).phase)
    (hphase : ∀ t, (G' t).phase = (G t).phase)
    (hheld : ∀ t, (∀ c, s.thr c ≠ t) → (G' t).held = (G t).held) : Stacks s' G' := by
  constructor
  · intro c
    rw [hcproc, hphase]
    exact h.cproc c
  · intro c hc
    rw [hcur] at hc
    rw [hphase]
    exact hsched c hc (h.idle c hc)
  · intro c p hc
    rw [hcur] at hc
    have haway : ∀ c', s.thr c' ≠ .sched c := by
      intro c' hc'
      obtain ⟨hidle, rfl⟩ := idle_of_thr hc'
      rw [hidle] at hc
      cases hc
    rw [hphase, hheld _ haway]
    exact h.busy c p hc
  · intro c p hc
    rw [hcur] at hc
    rw [hphase]
    exact hproc c p hc (h.proc c p hc)
  · intro c c' p hc hc'
    rw [hcur] at hc hc'
    exact h.inj c c' p hc hc'
  · intro p hp
    rw [hcur]
    simp only [hphase]
    exact h.running p (hstate p hp)
  · intro p hp
    rw [hcur] at hp
    rw [hphase, hheld _ fun c' hc' => hp c' (cur_of_thr hc')]
    exact h.away p hp

end

variable [DecidableEq C] {st : PState} {g : Priv n}

/-- The notes of the threads that are on no CPU are not touched. -/
theorem update_away (t : Thread n C) (ht : ∀ c, s.thr c ≠ t) : update G (s.thr c) g t = G t :=
  update_of_ne (fun heq => ht c heq.symm) ..

section

variable (h : Stacks s G)

include h

theorem Stacks.acquire (hl : s.lock l = none) (hphase : g.phase = (G (s.thr c)).phase)
    (m : Nat) : Stacks ((s.setLock l (some c)).setNoff c m) (update G (s.thr c) g) := by
  have hlock : ∀ p c', s.lock (.proc p) = some c' → update s.lock l (some c) (.proc p) = some c' := by
    intro p c' hp
    rw [update_of_ne, hp]
    rintro rfl
    rw [hl] at hp
    cases hp
  apply h.congr
  · rfl
  · rfl
  · exact fun _ hp => hp
  · exact fun c' _ hat => hat.mono (fun p _ => hlock p c') fun _ _ h₁ h₂ => ⟨h₁, h₂⟩
  · exact fun c' p _ hat => hat.mono (fun _ => hlock p c') Iff.rfl
  · exact update_field phase hphase
  · exact fun t ht => congrArg held (update_away t ht)

/-- The thread may let go of a lock: it is not in a switch that needs it. -/
theorem Stacks.release (hl : s.lock l = some c) (hphase : g.phase = (G (s.thr c)).phase)
    (hself : ∀ p, l = .proc p → s.cur c = some p → (G (s.thr c)).phase = .run)
    (hidle : ∀ p, l = .proc p → s.cur c = none → (G (s.thr c)).phase = .idle) (m : Nat) :
    Stacks ((s.setLock l none).setNoff c m) (update G (s.thr c) g) := by
  have hlock : ∀ p c', s.lock (.proc p) = some c' → c' ≠ c → update s.lock l none (.proc p) = some c' := by
    intro p c' hp hc'
    rw [update_of_ne, hp]
    rintro rfl
    exact hc' (some.inj (hp.symm.trans hl))
  -- the scheduler of this CPU has to be idle
  have hsched : ∀ p c', s.cur c' = none → s.lock (.proc p) = some c' → (G (.sched c')).phase ≠ .idle →
      update s.lock l none (.proc p) = some c' := by
    intro p c' hc' hp hph
    rcases eq_or_ne c' c with rfl | hcc
    · rw [update_of_ne, hp]
      rintro rfl
      apply hph
      rw [← thr_of_idle hc']
      exact hidle p rfl hc'
    · exact hlock p c' hp hcc
  apply h.congr
  · rfl
  · rfl
  · exact fun _ hp => hp
  · exact fun c' hc' hat => hat.mono (fun p hph hp => hsched p c' hc' hp hph) fun _ _ h₁ h₂ => ⟨h₁, h₂⟩
  · intro c' p hc' hat
    refine hat.mono (fun hph hp => ?_) Iff.rfl
    rcases eq_or_ne c' c with rfl | hcc
    · show update s.lock l none (.proc p) = some c'
      rw [update_of_ne, hp]
      rintro rfl
      apply hph
      rw [← thr_of_cur hc']
      exact hself p rfl hc'
    · exact hlock p c' hp hcc
  · exact update_field phase hphase
  · exact fun t ht => congrArg held (update_away t ht)

/-- The state of a process changes that is neither RUNNING before nor after. -/
theorem Stacks.setState (hst : s.k.state q ≠ .running)
    (hst' : st ≠ .running) (hcur : s'.cur = s.cur) (hcproc : s'.cproc = s.cproc) (hlock : s'.lock = s.lock)
    (hstate : s'.k.state = update s.k.state q st) (hphase : g.phase = (G (s.thr c)).phase) :
    Stacks s' (update G (s.thr c) g) := by
  have hrun : ∀ p, s'.k.state p = .running ↔ s.k.state p = .running := by
    intro p
    rw [hstate]
    by_cases hp : p = q
    · simp [hp, hst, hst']
    · simp [hp]
  apply h.congr hcur hcproc (fun p hp => (hrun p).mp hp)
  · exact fun c' _ hat => hat.mono (fun p _ hp => hlock ▸ hp) fun p _ h₁ h₂ => ⟨(hrun p).mpr h₁, hcur ▸ h₂⟩
  · exact fun c' p _ hat => hat.mono (fun _ hp => hlock ▸ hp) (hrun p)
  · exact update_field phase hphase
  · exact fun t ht => congrArg held (update_away t ht)

/-- A process leaves its state RUNNING. -/
theorem Stacks.leave (hc : s.cur c = some q)
    (hq : s.lock (.proc q) = some c) (hst' : st ≠ .running) (hcur : s'.cur = s.cur) (hcproc : s'.cproc = s.cproc)
    (hlock : s'.lock = s.lock) (hstate : s'.k.state = update s.k.state q st) (hphase : g.phase = .leave) :
    Stacks s' (update G (s.thr c) g) := by
  rw [thr_of_cur hc]
  have hsched : ∀ c', update G (.proc q) g (.sched c') = G (.sched c') := fun c' =>
    update_of_ne (by simp) ..
  have hproc : ∀ p, p ≠ q → update G (.proc q) g (.proc p) = G (.proc p) := fun p hp =>
    update_of_ne (by simpa using hp) ..
  have hne : ∀ p, p ≠ q → s'.k.state p = s.k.state p := fun p hp => by rw [hstate, update_of_ne hp]
  constructor
  · intro c'
    rw [hcproc, hsched]
    exact h.cproc c'
  · intro c' hc'
    rw [hcur] at hc'
    refine (h.idle c' hc').mono (fun p _ hp => hlock ▸ hp) fun r _ h₁ h₂ => ?_
    have hr : r ≠ q := fun hr => h₂ c (hr ▸ hc)
    exact ⟨(hne r hr).trans h₁, hcur ▸ h₂⟩
  · intro c' p hc'
    exact h.busy c' p (hcur ▸ hc')
  · intro c' p hc'
    rw [hcur] at hc'
    rcases eq_or_ne p q with rfl | hp
    · obtain rfl : c' = c := h.inj c' c p hc' hc
      rw [update_self, hphase]
      exact ⟨hlock ▸ hq, by rw [hstate, update_self]; exact hst'⟩
    · rw [hproc p hp]
      exact (h.proc c' p hc').mono (fun _ hp => hlock ▸ hp) (by rw [hne p hp])
  · rw [hcur]
    exact h.inj
  · intro p hp
    have hpq : p ≠ q := by
      rintro rfl
      rw [hstate, update_self] at hp
      exact hst' hp
    rw [hcur]
    exact h.running p (hne p hpq ▸ hp)
  · intro p hp
    rw [hcur] at hp
    have hpq : p ≠ q := fun hpq => hp c (hpq ▸ hc)
    rw [hproc p hpq]
    exact h.away p hp

section

variable (hc : s.cur c = none)

include hc

/-- A scheduler goes on. -/
theorem Stacks.sched (hcur : s'.cur = s.cur)
    (hcproc : s'.cproc = update s.cproc c g.phase.proc) (hat : SchedAt s' c g.phase)
    (hrun : ∀ p, (G (.sched c)).phase = .picked p ∨ (G (.sched c)).phase = .go p →
      g.phase = .picked p ∨ g.phase = .go p)
    (hstate : ∀ p, s'.k.state p = .running → s.k.state p = .running ∨ g.phase = .picked p)
    (hsched : ∀ c', c' ≠ c → s.cur c' = none → SchedAt s c' (G (.sched c')).phase →
      SchedAt s' c' (G (.sched c')).phase)
    (hproc : ∀ c' p, s.cur c' = some p → ProcAt s c' p (G (.proc p)).phase → ProcAt s' c' p (G (.proc p)).phase) :
    Stacks s' (update G (s.thr c) g) := by
  rw [thr_of_idle hc]
  have hother : ∀ c', c' ≠ c → update G (.sched c) g (.sched c') = G (.sched c') := fun c' hc' =>
    update_of_ne (by simpa using hc') ..
  have hprocs : ∀ p, update G (.sched c) g (.proc p) = G (.proc p) := fun p =>
    update_of_ne (by simp) ..
  constructor
  · intro c'
    rw [hcproc]
    by_cases hcc : c' = c
    · simp [hcc]
    · rw [hother c' hcc, update_of_ne hcc]
      exact h.cproc c'
  · intro c' hc'
    rw [hcur] at hc'
    rcases eq_or_ne c' c with rfl | hcc
    · rw [update_self]
      exact hat
    · rw [hother c' hcc]
      exact hsched c' hcc hc' (h.idle c' hc')
  · intro c' p hc'
    rw [hcur] at hc'
    have hcc : c' ≠ c := by
      rintro rfl
      rw [hc] at hc'
      cases hc'
    rw [hother c' hcc]
    exact h.busy c' p hc'
  · intro c' p hc'
    rw [hcur] at hc'
    exact hproc c' p hc' (h.proc c' p hc')
  · rw [hcur]
    exact h.inj
  · intro p hp
    rw [hcur]
    rcases hstate p hp with hp | hp
    · refine (h.running p hp).imp id ?_
      rintro ⟨c', hc', hph⟩
      refine ⟨c', hc', ?_⟩
      rcases eq_or_ne c' c with rfl | hcc
      · rw [update_self]
        exact hrun p hph
      · rw [hother c' hcc]
        exact hph
    · refine .inr ⟨c, hc, .inl ?_⟩
      rw [update_self, hp]
  · intro p hp
    rw [hcur] at hp
    exact h.away p hp

/-- A scheduler makes a process RUNNING. -/
theorem Stacks.pick (hidle : (G (.sched c)).phase = .idle)
    (hq : s.lock (.proc q) = some c) (hst : s.k.state q = .runnable) (hcur : s'.cur = s.cur)
    (hcproc : s'.cproc = s.cproc) (hlock : s'.lock = s.lock)
    (hstate : s'.k.state = update s.k.state q .running) (hphase : g.phase = .picked q) :
    Stacks s' (update G (s.thr c) g) := by
  have hoff : ∀ c', s.cur c' ≠ some q :=
    h.off_cpu hq (by rw [hc]; exact nofun) (by rw [hst]; exact nofun)
  have hne : ∀ p, p ≠ q → s'.k.state p = s.k.state p := fun p hp => by rw [hstate, update_of_ne hp]
  have hrun : ∀ r, s.k.state r = .running → r ≠ q := by
    rintro r hr rfl
    rw [hst] at hr
    cases hr
  have hcp : s.cproc c = none := by
    rw [h.cproc c, hidle]
    rfl
  apply h.sched hc hcur
  · rw [hcproc, hphase]
    funext c'
    by_cases hcc : c' = c
    · simp [hcc, hcp, Phase.proc]
    · simp [hcc]
  · rw [hphase]
    exact ⟨hlock ▸ hq, by rw [hstate, update_self], hcur ▸ hoff⟩
  · intro p hp
    rw [hidle] at hp
    rcases hp with hp | hp <;> cases hp
  · intro p hp
    by_cases hpq : p = q
    · exact .inr (hpq ▸ hphase)
    · exact .inl (hne p hpq ▸ hp)
  · intro c' _ _ hat
    exact hat.mono (fun p _ hp => hlock ▸ hp) fun r _ h₁ h₂ => ⟨(hne r (hrun r h₁)).trans h₁, hcur ▸ h₂⟩
  · intro c' p hc' hat
    have hpq : p ≠ q := fun hpq => hoff c' (hpq ▸ hc')
    exact hat.mono (fun _ hp => hlock ▸ hp) (by rw [hne p hpq])

/-- A scheduler sets `c->proc`. -/
theorem Stacks.setProc (hph : (∃ p, (G (.sched c)).phase = .picked p ∧ g.phase = .go p) ∨
      (∃ p, (G (.sched c)).phase = .back p) ∧ g.phase = .idle) :
    Stacks (s.setCproc c g.phase.proc) (update G (s.thr c) g) := by
  have hidle := h.idle c hc
  apply h.sched hc
  · rfl
  · rfl
  · rcases hph with ⟨p, hp, hg⟩ | ⟨-, hg⟩
    · rw [hp] at hidle
      rw [hg]
      exact hidle
    · rw [hg]
      trivial
  · intro r hr
    rcases hph with ⟨p, hp, hg⟩ | ⟨⟨p, hp⟩, hg⟩ <;> rw [hp] at hr
    · rcases hr with hr | hr
      · rw [← Phase.picked.inj hr]
        exact .inr hg
      · cases hr
    · rcases hr with hr | hr <;> cases hr
  · exact fun p hp => .inl hp
  · exact fun c' _ _ hat => hat
  · exact fun c' p _ hat => hat

end

end

/-- The notes when a CPU switches to process `p`. -/
def resume (G : Thread n C → Priv n) (c : C) (p : Fin n) : Thread n C → Priv n :=
  update (update G (.sched c) ((G (.sched c)).setPhase (.back p))) (.proc p)
    ((G (.proc p)).setPhase .run)

@[simp] theorem resume_proc (G : Thread n C → Priv n) (c : C) (p : Fin n) :
    resume G c p (.proc p) = (G (.proc p)).setPhase .run := update_self ..

theorem resume_proc_ne {p' : Fin n} (hp : p' ≠ p) : resume G c p (.proc p') = G (.proc p') := by
  rw [resume, update_of_ne (by simpa using hp), update_of_ne (by simp)]

@[simp] theorem resume_sched (G : Thread n C → Priv n) (c : C) (p : Fin n) :
    resume G c p (.sched c) = (G (.sched c)).setPhase (.back p) := by
  rw [resume, update_of_ne (by simp), update_self]

theorem resume_sched_ne {c' : C} (hc' : c' ≠ c) : resume G c p (.sched c') = G (.sched c') := by
  rw [resume, update_of_ne (by simp), update_of_ne (by simpa using hc')]

/-- Only the phases change. -/
theorem resume_field {α : Type} (f : Priv n → α) (hf : ∀ g x, f (setPhase g x) = f g) {t : Thread n C} :
    f (resume G c p t) = f (G t) := by
  rcases t with p' | c'
  · by_cases hp : p' = p
    · rw [hp, resume_proc, hf]
    · rw [resume_proc_ne hp]
  · by_cases hc : c' = c
    · rw [hc, resume_sched, hf]
    · rw [resume_sched_ne hc]

/-- **A CPU switches to a process.** -/
theorem Stacks.swtchTo (h : Stacks s G) (hc : s.cur c = none) (hgo : (G (.sched c)).phase = .go p)
    (hheld : (G (.sched c)).held = [.proc p]) : Stacks (s.setCur c (some p)) (resume G c p) := by
  obtain ⟨hlock, hst, hoff⟩ : s.lock (.proc p) = some c ∧ s.k.state p = .running ∧ ∀ c', s.cur c' ≠ some p := by
    have hat := h.idle c hc
    rw [hgo] at hat
    exact hat
  have hcur : ∀ c', c' ≠ c → (s.setCur c (some p)).cur c' = s.cur c' := fun c' hc' => update_of_ne hc' ..
  have hself : (s.setCur c (some p)).cur c = some p := update_self ..
  constructor
  · intro c'
    rcases eq_or_ne c' c with rfl | hcc
    · rw [resume_sched]
      show s.cproc c' = _
      rw [h.cproc c', hgo]
      rfl
    · rw [resume_sched_ne hcc]
      exact h.cproc c'
  · intro c' hc'
    have hcc : c' ≠ c := by
      rintro rfl
      rw [hself] at hc'
      cases hc'
    rw [hcur c' hcc] at hc'
    rw [resume_sched_ne hcc]
    refine (h.idle c' hc').mono (fun _ _ hp => hp) fun r hr hst hoff' => ⟨hst, fun c'' => ?_⟩
    -- another scheduler has another process
    rcases eq_or_ne c'' c with rfl | hcc'
    · rw [hself]
      rintro ⟨⟩
      exact hcc (some.inj (hr.symm.trans hlock))
    · rw [hcur c'' hcc']
      exact hoff' c''
  · intro c' p' hc'
    rcases eq_or_ne c' c with rfl | hcc
    · rw [hself] at hc'
      obtain rfl := some.inj hc'
      rw [resume_sched]
      exact ⟨rfl, hheld⟩
    · rw [hcur c' hcc] at hc'
      rw [resume_sched_ne hcc]
      exact h.busy c' p' hc'
  · intro c' p' hc'
    rcases eq_or_ne c' c with rfl | hcc
    · rw [hself] at hc'
      obtain rfl := some.inj hc'
      rw [resume_proc]
      exact hst
    · rw [hcur c' hcc] at hc'
      have hne : p' ≠ p := fun hne => hoff c' (hne ▸ hc')
      rw [resume_proc_ne hne]
      exact h.proc c' p' hc'
  · intro c₁ c₂ p' h₁ h₂
    by_cases hc₁ : c₁ = c
    · by_cases hc₂ : c₂ = c
      · exact hc₁.trans hc₂.symm
      · rw [hc₁, hself] at h₁
        rw [hcur c₂ hc₂, ← some.inj h₁] at h₂
        exact absurd h₂ (hoff c₂)
    · by_cases hc₂ : c₂ = c
      · rw [hc₂, hself] at h₂
        rw [hcur c₁ hc₁, ← some.inj h₂] at h₁
        exact absurd h₁ (hoff c₁)
      · rw [hcur c₁ hc₁] at h₁
        rw [hcur c₂ hc₂] at h₂
        exact h.inj c₁ c₂ p' h₁ h₂
  · intro r hr
    by_cases hrp : r = p
    · exact .inl ⟨c, hrp ▸ hself⟩
    rcases h.running r hr with ⟨c', hc'⟩ | ⟨c', hc', hph⟩
    · have hcc : c' ≠ c := by
        rintro rfl
        rw [hc] at hc'
        cases hc'
      exact .inl ⟨c', (hcur c' hcc).trans hc'⟩
    · have hcc : c' ≠ c := by
        rintro rfl
        rw [hgo] at hph
        rcases hph with hph | hph
        · cases hph
        · exact hrp (Phase.go.inj hph).symm
      exact .inr ⟨c', (hcur c' hcc).trans hc', by rwa [resume_sched_ne hcc]⟩
  · intro r hr
    have hrp : r ≠ p := by
      rintro rfl
      exact hr c hself
    rw [resume_proc_ne hrp]
    refine h.away r fun c' hc' => ?_
    have hcc : c' ≠ c := by
      rintro rfl
      rw [hc] at hc'
      cases hc'
    exact hr c' ((hcur c' hcc).trans hc')

theorem Locks.swtchTo (h : Locks s G) (hs : Stacks s G) (hc : s.cur c = none) (hgo : (G (.sched c)).phase = .go p)
    (hheld : (G (.sched c)).held = [.proc p]) : Locks (s.setCur c (some p)) (resume G c p) := by
  have hoff : ∀ c', s.cur c' ≠ some p := by
    have hat := hs.idle c hc
    rw [hgo] at hat
    exact hat.2.2
  refine h.of_same rfl rfl fun c' => ?_
  rcases eq_or_ne c' c with rfl | hcc
  · have hthr : (s.setCur c' (some p)).thr c' = .proc p := thr_of_cur (update_self ..)
    rw [hthr, resume_proc, thr_of_idle hc, hheld]
    exact (hs.away p hoff).1
  · rw [thr_setCur hcc]
    rcases hcur : s.cur c' with - | p'
    · rw [thr_of_idle hcur, resume_sched_ne hcc]
    · have hp : p' ≠ p := fun hp => hoff c' (hp ▸ hcur)
      rw [thr_of_cur hcur, resume_proc_ne hp]

/-- **A process switches to the scheduler of its CPU.** -/
theorem Stacks.swtch (h : Stacks s G) (hc : s.cur c = some p) (hleave : (G (.proc p)).phase = .leave)
    (hheld : (G (.proc p)).held = [.proc p]) : Stacks (s.setCur c none) G := by
  obtain ⟨hlock, hst⟩ : s.lock (.proc p) = some c ∧ s.k.state p ≠ .running := by
    have hat := h.proc c p hc
    rw [hleave] at hat
    exact hat
  have hcur : ∀ c', c' ≠ c → (s.setCur c none).cur c' = s.cur c' := fun c' hc' => update_of_ne hc' ..
  have hself : (s.setCur c none).cur c = none := update_self ..
  have hsome : ∀ c' r, (s.setCur c none).cur c' = some r → c' ≠ c ∧ s.cur c' = some r := by
    intro c' r hc'
    by_cases hcc : c' = c
    · rw [hcc, hself] at hc'
      cases hc'
    · exact ⟨hcc, (hcur c' hcc).symm.trans hc'⟩
  constructor
  · exact h.cproc
  · intro c' hc'
    rcases eq_or_ne c' c with rfl | hcc
    · rw [(h.busy c' p hc).1]
      exact hlock
    · rw [hcur c' hcc] at hc'
      refine (h.idle c' hc').mono (fun _ _ hp => hp) fun r _ hst hoff => ⟨hst, fun c'' hc'' => ?_⟩
      exact hoff c'' (hsome c'' r hc'').2
  · exact fun c' r hc' => h.busy c' r (hsome c' r hc').2
  · exact fun c' r hc' => h.proc c' r (hsome c' r hc').2
  · exact fun c₁ c₂ r h₁ h₂ => h.inj c₁ c₂ r (hsome c₁ r h₁).2 (hsome c₂ r h₂).2
  · intro r hr
    rcases h.running r hr with ⟨c', hc'⟩ | ⟨c', hc', hph⟩
    · have hcc : c' ≠ c := by
        rintro rfl
        rw [hc] at hc'
        exact hst (some.inj hc' ▸ hr)
      exact .inl ⟨c', (hcur c' hcc).trans hc'⟩
    · have hcc : c' ≠ c := by
        rintro rfl
        rw [hc] at hc'
        cases hc'
      exact .inr ⟨c', (hcur c' hcc).trans hc', hph⟩
  · intro r hr
    by_cases hrp : r = p
    · exact hrp ▸ ⟨hheld, hleave⟩
    refine h.away r fun c' hc' => ?_
    have hcc : c' ≠ c := by
      rintro rfl
      rw [hc] at hc'
      exact hrp (some.inj hc').symm
    exact hr c' ((hcur c' hcc).trans hc')

theorem Locks.swtch (h : Locks s G) (hs : Stacks s G) (hc : s.cur c = some p)
    (hheld : (G (.proc p)).held = [.proc p]) : Locks (s.setCur c none) G := by
  refine h.of_same rfl rfl fun c' => ?_
  rcases eq_or_ne c' c with rfl | hcc
  · have hthr : (s.setCur c' none).thr c' = .sched c' := thr_of_idle (update_self ..)
    rw [hthr, thr_of_cur hc, hheld, (hs.busy c' p hc).2]
  · rw [thr_setCur hcc]

/-- The notes of a process that has not started yet. -/
def Priv.unborn (q : Fin n) : Priv n := (fresh.setHeld [.proc q]).setPhase .leave

/-- The context of a process is set up that is on no CPU. -/
theorem Stacks.reset (h : Stacks s G) (hq : ∀ c, s.cur c ≠ some q) : Stacks s (update G (.proc q) (unborn q)) := by
  have hphase : ∀ t, (update G (.proc q) (unborn q) t).phase = (G t).phase :=
    update_field phase (h.away q hq).2.symm
  have hheld : ∀ t, (update G (.proc q) (unborn q) t).held = (G t).held :=
    update_field held (h.away q hq).1.symm
  apply h.congr
  · rfl
  · rfl
  · exact fun _ hp => hp
  · exact fun _ _ hat => hat
  · exact fun _ _ _ hat => hat
  · exact hphase
  · exact fun t _ => hheld t

/-- **Stacks, when a process changes its state.** -/
theorem Stacks.moves [NeZero n] {a a' : Aux n} (h : Stacks s G) (hmarks : Marks s G)
    (hq : s.lock (.proc q) = some c) (hmv : Moves (s.cur c) ⟨G (s.thr c), s.k, a⟩ q st g a') :
    Stacks (s.move q st) (update G (s.thr c) g) := by
  have hleave : s.cur c = some q → st ≠ .running → g.phase = .leave →
      Stacks (s.move q st) (update G (s.thr c) g) := fun hc hst' hph =>
    h.leave hc hq hst' rfl rfl rfl move_state hph
  have hquiet : s.k.state q ≠ .running → st ≠ .running → g.phase = (G (s.thr c)).phase →
      Stacks (s.move q st) (update G (s.thr c) g) := fun hst hst' hph =>
    h.setState hst hst' rfl rfl rfl move_state hph
  cases hmv with
  | alloc hst | abort hst | reap hst | wake hst => exact hquiet (by rw [hst]; exact nofun) nofun rfl
  | birth hchild =>
    obtain ⟨-, -, hst⟩ := (hmarks.ok _).child q hchild
    exact hquiet (by rw [hst]; exact nofun) nofun rfl
  | yield hself | sleep _ hself | exit hself => exact hleave hself nofun rfl
  | pick hself hidle hst =>
    rw [thr_of_idle hself] at hidle
    exact h.pick hself hidle hq hst rfl rfl rfl move_state rfl

end StackSteps

end Xv6.Sched
