/-
Xv6/ProcNotes.lean

The notes of the threads and the sleepers, step by step.

What a thread notes is about processes whose lock it has, about itself or about
a process that it sets up, so that no other thread can make it wrong.  A sleeper is found
by `wakeup` because it counts as asleep from the moment on when `sleep` has released the
lock (`Asleep.release`), and nobody looks at it before it has released its own
lock in `sched`.
-/
import Xv6.ProcStack

namespace Xv6.Sched

open Function Priv

variable {n : Nat} {C : Type}

/-! ### The notes of a thread: every step -/

section MarkSteps

variable {s s' : Sys n C} {G G' : Thread n C → Priv n} {c : C} {t : Thread n C} {g g' : Priv n} {l : Lock n}
  {p q : Fin n}

/-- What the notes of a thread mean does not depend on what the others may change. -/
theorem MarkOk.mono (h : MarkOk s t g) (hcur : s'.cur = s.cur)
    (hlock : ∀ c l, s.thr c = t → s.lock l = some c → s'.lock l = some c)
    (hused : ∀ q, g.child = some q → s.k.state q = .used → s'.k.state q = .used)
    (halive : ∀ p, t = .proc p → (s.k.state p).alive = true → (s'.k.state p).alive = true)
    (hwindow : ∀ p, t = .proc p → s'.k.window p = s.k.window p) : MarkOk s' t g := by
  have hthr : ∀ c, s'.thr c = s.thr c := fun c => by rw [Sys.thr, Sys.thr, hcur]
  constructor
  · intro q hq
    obtain ⟨h₁, h₂, h₃⟩ := h.child q hq
    exact ⟨h₁, h₂, hused q hq h₃⟩
  · intro l hl
    obtain ⟨c, p, rfl, hc, hp, hph⟩ := h.drowsy l hl
    exact ⟨c, p, rfl, hcur ▸ hc, hlock c _ (thr_of_cur hc) hp, hph⟩
  · intro q hq
    obtain ⟨c, hc, hl⟩ := h.wakes q hq
    exact ⟨c, (hthr c).trans hc, hlock c _ hc hl⟩
  · intro q hq
    refine (h.blames q hq).imp ?_ ?_
    · rintro ⟨hne, c, hc, hl⟩
      exact ⟨hne, c, (hthr c).trans hc, hlock c _ hc hl⟩
    · exact fun h' => ⟨h'.1, halive q h'.1 h'.2⟩
  · intro p hp
    obtain ⟨h₁, h₂⟩ := h.tested p hp
    exact ⟨h₁.trans (hwindow p hp).symm, fun ht => halive p hp (h₂ ht)⟩

/-- The thread changes none of these notes. -/
theorem MarkOk.priv (h : MarkOk s t g) (hchild : g'.child = g.child) (hdrowsy : g'.drowsy = g.drowsy)
    (hwakes : g'.wakes = g.wakes) (hblames : g'.blames = g.blames) (htested : g'.tested = g.tested)
    (hphase : g.phase = .run → g.drowsy ≠ none → g'.phase = .run) : MarkOk s t g' := by
  constructor
  · rw [hchild]
    exact h.child
  · intro l hl
    rw [hdrowsy] at hl
    obtain ⟨c, p, ht, hc, hp, hph⟩ := h.drowsy l hl
    exact ⟨c, p, ht, hc, hp, hphase hph (by rw [hl]; exact nofun)⟩
  · rw [hwakes]
    exact h.wakes
  · rw [hblames]
    exact h.blames
  · rw [htested]
    exact h.tested

variable [DecidableEq C]

theorem Marks.change (h : Marks s G) (hself : MarkOk s' t g) (hothers : ∀ t', t' ≠ t → MarkOk s' t' (G t'))
    (hchild : ∀ q, g.child = some q → (G t).child = some q ∨ ∀ t', (G t').child ≠ some q) :
    Marks s' (update G t g) := by
  constructor
  · intro t'
    rcases eq_or_ne t' t with rfl | ht
    · rw [update_self]
      exact hself
    · rw [update_of_ne ht]
      exact hothers t' ht
  · intro t₁ t₂ q h₁ h₂
    by_cases ht₁ : t₁ = t
    · by_cases ht₂ : t₂ = t
      · exact ht₁.trans ht₂.symm
      subst ht₁
      rw [update_self] at h₁
      rw [update_of_ne ht₂] at h₂
      rcases hchild q h₁ with h₁ | h₁
      · exact h.uniq _ _ q h₁ h₂
      · exact absurd h₂ (h₁ t₂)
    · rcases eq_or_ne t₂ t with rfl | ht₂
      · rw [update_self] at h₂
        rw [update_of_ne ht₁] at h₁
        rcases hchild q h₂ with h₂ | h₂
        · exact h.uniq _ _ q h₁ h₂
        · exact absurd h₁ (h₂ t₁)
      · rw [update_of_ne ht₁] at h₁
        rw [update_of_ne ht₂] at h₂
        exact h.uniq _ _ q h₁ h₂

theorem Marks.acquire (h : Marks s G) (hl : s.lock l = none) (held : List (Lock n)) (m : Nat) :
    Marks ((s.setLock l (some c)).setNoff c m) (update G (s.thr c) ((G (s.thr c)).setHeld held)) := by
  have hok : ∀ t', MarkOk ((s.setLock l (some c)).setNoff c m) t' (G t') := by
    intro t'
    apply (h.ok t').mono
    · rfl
    · intro c' l' _ hl'
      show update s.lock l (some c) l' = some c'
      rw [update_of_ne, hl']
      rintro rfl
      rw [hl] at hl'
      cases hl'
    · exact fun _ _ hq => hq
    · exact fun _ _ hp => hp
    · exact fun _ _ => rfl
  apply h.change
  · exact (hok _).priv rfl rfl rfl rfl rfl fun hph _ => hph
  · exact fun t' _ => hok t'
  · exact fun q hq => .inl hq

/-- A thread that has released a lock: the notes are about other locks. -/
theorem Marks.release [NeZero n] {a : Aux n} (h : Marks s G) (hlocks : Locks s G)
    (hl : l ∈ (G (s.thr c)).held) (hgives : Gives (s.cur c) ⟨G (s.thr c), s.k, a⟩ l) (m : Nat) :
    Marks ((s.setLock l none).setNoff c m)
      (update G (s.thr c) ((G (s.thr c)).unlock (s.cur c) l)) := by
  have hlc : s.lock l = some c := (hlocks.held c l).mp hl
  have hkeep : ∀ c' l', s.lock l' = some c' → l' ≠ l → update s.lock l none l' = some c' :=
    fun c' l' hl' hne => by rw [update_of_ne hne, hl']
  have hself := h.ok (s.thr c)
  have hfields : ((G (s.thr c)).unlock (s.cur c) l).child = (G (s.thr c)).child ∧
      ((G (s.thr c)).unlock (s.cur c) l).wakes = (G (s.thr c)).wakes ∧
      ((G (s.thr c)).unlock (s.cur c) l).blames = (G (s.thr c)).blames ∧
      ((G (s.thr c)).unlock (s.cur c) l).tested = (G (s.thr c)).tested ∧
      ((G (s.thr c)).unlock (s.cur c) l).phase = (G (s.thr c)).phase := by
    rw [unlock]
    split <;> exact ⟨rfl, rfl, rfl, rfl, rfl⟩
  obtain ⟨hchild, hwakes, hblames, htested, hphase⟩ := hfields
  apply h.change
  · constructor
    · rw [hchild]
      exact hself.child
    · intro l' hl'
      rw [hphase]
      by_cases hcom : Commits (s.cur c) (G (s.thr c)) ∧ (s.cur c).map Lock.proc ≠ some l
      · -- the process is going to sleep
        obtain ⟨⟨p, hp, hmem, hph⟩, hne⟩ := hcom
        refine ⟨c, p, thr_of_cur hp, hp, hkeep c _ ((hlocks.held c _).mp hmem) ?_, hph⟩
        rintro rfl
        exact hne (by rw [hp]; rfl)
      · have hd : (G (s.thr c)).drowsy = some l' := by
          rw [unlock, if_neg hcom] at hl'
          exact hl'
        obtain ⟨c', p, ht, hc', hp, hph⟩ := hself.drowsy l' hd
        refine ⟨c', p, ht, hc', hkeep c' _ hp ?_, hph⟩
        rintro rfl
        have hnone := (hgives.2.1 (cur_of_thr ht)).2
        rw [hd] at hnone
        cases hnone
    · intro q hq
      rw [hwakes] at hq
      obtain ⟨c', hc', hp⟩ := hself.wakes q hq
      refine ⟨c', hc', hkeep c' _ hp ?_⟩
      rintro rfl
      exact hgives.2.2.2.1 hq
    · intro q hq
      rw [hblames] at hq
      refine (hself.blames q hq).imp ?_ id
      rintro ⟨hne, c', hc', hp⟩
      refine ⟨hne, c', hc', hkeep c' _ hp ?_⟩
      rintro rfl
      exact hne (thr_of_cur (hgives.2.2.2.2 hq))
    · rw [htested]
      exact hself.tested
  · intro t' ht'
    apply (h.ok t').mono
    · rfl
    · intro c' l' hc' hl'
      refine hkeep c' l' hl' ?_
      rintro rfl
      have hcc : c' = c := Option.some.inj (hl'.symm.trans hlc)
      exact ht' (hcc ▸ hc'.symm)
    · exact fun _ _ hq => hq
    · exact fun _ _ hp => hp
    · exact fun _ _ => rfl
  · rw [hchild]
    exact fun q hq => .inl hq

omit [DecidableEq C] in
theorem MarkOk.setChild_none (h : MarkOk s t g) : MarkOk s t (g.setChild none false false) :=
  ⟨nofun, h.drowsy, h.wakes, h.blames, h.tested⟩

section

variable (h : Marks s G)

include h

/-- **The notes, when a process changes its state.** -/
theorem Marks.moves [NeZero n] {st : PState} {a a' : Aux n} (hstack : Stacks s G)
    (hmv : Moves (s.cur c) ⟨G (s.thr c), s.k, a⟩ q st g a') :
    Marks (s.move q st) (update G (s.thr c) g) := by
  have hself := h.ok (s.thr c)
  -- a process that is on a CPU with the phase `run` is RUNNING
  have hrun : s.cur c = some q → (G (s.thr c)).phase = .run → s.k.state q = .running := by
    intro hc hph
    rw [thr_of_cur hc] at hph
    exact hstack.running_of_run hc hph
  have hne : ∀ p, p ≠ q → (s.move q st).k.state p = s.k.state p := fun p hp => by
    rw [move_state, update_of_ne hp]
  have hused : ∀ q', s.k.state q' = .used → (G (s.thr c)).child ≠ some q' → (s.move q st).k.state q' = .used := by
    intro q' hq' hchild
    rcases eq_or_ne q' q with rfl | hqq
    · rcases hmv.used hq' with hc | ⟨hc, hph⟩
      · exact absurd hc hchild
      · exact absurd (hq'.symm.trans (hrun hc hph)) nofun
    · rw [hne q' hqq, hq']
  have halive : ∀ p, s.thr c ≠ .proc p → (s.k.state p).alive = true → ((s.move q st).k.state p).alive = true := by
    intro p hp hal
    rcases eq_or_ne p q with rfl | hpq
    · rw [move_state, update_self]
      exact hmv.alive (fun hc => hp (thr_of_cur hc)) hal
    · rw [hne p hpq]
      exact hal
  -- the window is closed only by the process that goes to sleep
  have hwindow : ∀ p, s.thr c ≠ .proc p → (s.move q st).k.window p = s.k.window p := by
    intro p hp
    rw [move_window]
    split
    · rename_i hst
      have hpq : p ≠ q := by
        rintro rfl
        subst hst
        cases hmv with
        | sleep ch hself => exact hp (thr_of_cur hself)
      rw [update_of_ne hpq]
    · rfl
  have hothers : ∀ t', t' ≠ s.thr c → MarkOk (s.move q st) t' (G t') := by
    intro t' ht'
    apply (h.ok t').mono
    · rfl
    · exact fun _ _ _ hl => hl
    · exact fun q' hq' hst => hused q' hst fun hc => ht' (h.uniq _ _ q' hq' hc)
    · exact fun p hp => halive p fun hc => ht' (hp.trans hc.symm)
    · exact fun p hp => hwindow p fun hc => ht' (hp.trans hc.symm)
  -- the thread itself, if it is not the process that changes its state
  have hown : ∀ g', MarkOk s (s.thr c) g' → (∀ q', g'.child = some q' → q' ≠ q) →
      (∀ p, s.thr c = .proc p → (s.k.state p).alive = true → ((s.move q st).k.state p).alive = true) →
      st ≠ .sleeping → MarkOk (s.move q st) (s.thr c) g' := by
    intro g' hg' hchild hal hst
    apply hg'.mono
    · rfl
    · exact fun _ _ _ hl => hl
    · exact fun q' hq' hu => (hne q' (hchild q' hq')).trans hu
    · exact hal
    · intro p _
      rw [move_window, if_neg hst]
  -- the process that leaves the state RUNNING
  have hleave : ∀ g', s.cur c = some q → g'.child = (G (s.thr c)).child → g'.drowsy = none →
      g'.wakes = (G (s.thr c)).wakes → g'.blames = (G (s.thr c)).blames →
      ((G (s.thr c)).blames ≠ none → st.alive = true) →
      (g'.tested = (s.move q st).k.window q ∧ (g'.tested = true → st.alive = true)) →
      MarkOk (s.move q st) (s.thr c) g' := by
    intro g' hc hchild hdrowsy hwakes hblames hal htested
    constructor
    · intro q' hq'
      rw [hchild] at hq'
      obtain ⟨h₁, h₂, h₃⟩ := hself.child q' hq'
      have hqq : q' ≠ q := by
        rintro rfl
        rw [who_thr] at h₂
        exact h₂ hc
      exact ⟨h₁, h₂, (hne q' hqq).trans h₃⟩
    · intro l hl
      rw [hdrowsy] at hl
      cases hl
    · rw [hwakes]
      exact hself.wakes
    · intro q' hq'
      rw [hblames] at hq'
      refine (hself.blames q' hq').imp id ?_
      rintro ⟨ht, -⟩
      obtain rfl : q = q' := Thread.proc.inj ((thr_of_cur hc).symm.trans ht)
      refine ⟨ht, ?_⟩
      rw [move_state, update_self]
      exact hal (by rw [hq']; exact nofun)
    · intro p hp
      obtain rfl : q = p := Thread.proc.inj ((thr_of_cur hc).symm.trans hp)
      refine ⟨htested.1, fun ht => ?_⟩
      rw [move_state, update_self]
      exact htested.2 ht
  have hnot : ∀ {x}, s.k.state q = x → x.alive = false →
      ∀ p, s.thr c = .proc p → (s.k.state p).alive = true → ((s.move q st).k.state p).alive = true := by
    intro x hx hdead p _ hal
    have hpq : p ≠ q := by
      rintro rfl
      rw [hx, hdead] at hal
      cases hal
    rw [hne p hpq]
    exact hal
  cases hmv with
  | alloc hst hlife hwho hq hchild =>
    have hnone : ∀ q', (G (s.thr c)).child = some q' → q' ≠ q := fun q' hq' => by
      rw [show (G (s.thr c)).child = none from hchild] at hq'
      cases hq'
    obtain ⟨-, h₂, h₃, h₄, h₅⟩ := hown _ hself hnone (hnot hst rfl) nofun
    apply h.change
    · refine ⟨?_, h₂, h₃, h₄, h₅⟩
      rintro q' ⟨⟩
      rw [who_thr]
      exact ⟨hwho, hq, by simp⟩
    · exact hothers
    · intro q' hq'
      right
      intro t' ht'
      obtain ⟨-, -, hu⟩ := (h.ok t').child q' ht'
      rw [← Option.some.inj hq', show s.k.state q = .unused from hst] at hu
      cases hu
  | abort hst hchild =>
    exact h.change (hown _ hself.setChild_none nofun (hnot hst rfl) nofun) hothers nofun
  | reap hst =>
    apply h.change (hown _ hself ?_ (hnot hst rfl) nofun) hothers fun q' hq' => .inl hq'
    rintro q' hq' rfl
    obtain ⟨-, -, hu⟩ := hself.child q' hq'
    exact absurd (hu.symm.trans hst) nofun
  | wake hst =>
    have hnone : ∀ q', (G (s.thr c)).child = some q' → q' ≠ q := by
      rintro q' hq' rfl
      obtain ⟨-, -, hu⟩ := hself.child q' hq'
      exact absurd (hu.symm.trans hst) nofun
    have hal : ∀ p, s.thr c = .proc p → (s.k.state p).alive = true →
        ((s.move q .runnable).k.state p).alive = true := by
      intro p _ hal
      rw [move_state]
      by_cases hpq : p = q
      · rw [hpq, update_self]
        rfl
      · rw [update_of_ne hpq]
        exact hal
    obtain ⟨h₁, h₂, h₃, h₄, h₅⟩ := hown _ hself hnone hal nofun
    apply h.change
    · exact ⟨h₁, h₂, nofun, h₄, h₅⟩
    · exact hothers
    · exact fun q' hq' => .inl hq'
  | birth hchild =>
    obtain ⟨-, -, hst⟩ := hself.child q hchild
    exact h.change (hown _ hself.setChild_none nofun (hnot hst rfl) nofun) hothers nofun
  | yield hc hph hdrowsy =>
    refine h.change (hleave _ hc rfl hdrowsy rfl rfl (fun _ => rfl) ?_) hothers fun q' hq' => .inl hq'
    exact ⟨(hself.tested q (thr_of_cur hc)).1, fun _ => rfl⟩
  | pick hc hidle hst =>
    have hnone : ∀ l, (G (s.thr c)).drowsy ≠ some l := by
      intro l hl
      obtain ⟨-, p, ht, -⟩ := hself.drowsy l hl
      rw [thr_of_idle hc] at ht
      cases ht
    have hchild : ∀ q', (G (s.thr c)).child ≠ some q' := by
      intro q' hq'
      obtain ⟨hwho, -⟩ := hself.child q' hq'
      rw [who_thr] at hwho
      exact hwho hc
    have hsched : ∀ p, s.thr c ≠ .proc p := fun p hp => absurd ((thr_of_idle hc).symm.trans hp) nofun
    have hok : MarkOk s (s.thr c) ((G (s.thr c)).setPhase (.picked q)) :=
      ⟨hself.child, fun l hl => absurd hl (hnone l), hself.wakes, hself.blames, hself.tested⟩
    refine h.change (hown _ hok ?_ ?_ nofun) hothers fun q' hq' => .inl hq'
    · exact fun q' hq' => absurd hq' (hchild q')
    · exact fun p hp => absurd hp (hsched p)
  | sleep ch hc hph hch hok =>
    refine h.change (hleave _ hc rfl rfl rfl rfl (fun _ => rfl) ?_) hothers fun q' hq' => .inl hq'
    exact ⟨by simp, nofun⟩
  | exit hc hph hdrowsy hinit hwait hchild htested hblames =>
    refine h.change (hleave _ hc rfl hdrowsy rfl rfl (fun hb => absurd hblames hb) ?_) hothers fun q' hq' => .inl hq'
    exact ⟨(hself.tested q (thr_of_cur hc)).1, fun ht => absurd (htested.symm.trans ht) Bool.false_ne_true⟩

/-- A thread changes its notes, and the machine does not change where they are about. -/
theorem Marks.note (hcur : s'.cur = s.cur) (hlock : s'.lock = s.lock)
    (hstate : s'.k.state = s.k.state) (hwindow : ∀ p, t ≠ .proc p → s'.k.window p = s.k.window p)
    (hself : MarkOk s' t g) (hchild : g.child = (G t).child) : Marks s' (update G t g) := by
  apply h.change hself
  · intro t' ht'
    apply (h.ok t').mono hcur
    · exact fun _ _ _ hl => hlock ▸ hl
    · exact fun _ _ hq => hstate ▸ hq
    · exact fun _ _ hp => hstate ▸ hp
    · exact fun p hp => hwindow p fun ht => ht' (hp.trans ht.symm)
  · exact fun q hq => .inl (hchild ▸ hq)

/-- The context of a process is set up. -/
theorem Marks.reset (hst : s.k.state q = .used) : Marks s (update G (.proc q) (unborn q)) := by
  apply h.change
  · refine ⟨nofun, nofun, nofun, nofun, ?_⟩
    rintro _ ⟨⟩
    obtain ⟨h₁, h₂⟩ := (h.ok (.proc q)).tested q rfl
    refine ⟨?_, nofun⟩
    rw [← h₁]
    show false = _
    by_contra hne
    have halive := h₂ (by simpa using Ne.symm hne)
    rw [hst] at halive
    cases halive
  · exact fun t' _ => h.ok t'
  · exact nofun

theorem Marks.swtchTo (hstack : Stacks s G) (hc : s.cur c = none)
    (hgo : (G (.sched c)).phase = .go p) (hwakes : (G (.sched c)).wakes = none)
    (hblames : (G (.sched c)).blames = none) : Marks (s.setCur c (some p)) (resume G c p) := by
  have hoff : ∀ c', s.cur c' ≠ some p := by
    have hat := hstack.idle c hc
    rw [hgo] at hat
    exact hat.2.2
  -- the scheduler is the only thread that is not on a CPU any more
  have hwhere : ∀ t c', s.thr c' = t → t ≠ .sched c → (s.setCur c (some p)).thr c' = t := by
    rintro t c' rfl ht
    refine thr_setCur ?_
    rintro rfl
    exact ht (thr_of_idle hc)
  constructor
  · intro t
    have hok := h.ok t
    constructor
    · rw [resume_field child fun _ _ => rfl]
      exact hok.child
    · rw [resume_field drowsy fun _ _ => rfl]
      intro l hl
      obtain ⟨c', p', rfl, hc', hp', hph⟩ := hok.drowsy l hl
      have hcc : c' ≠ c := by
        rintro rfl
        rw [hc] at hc'
        cases hc'
      have hpp : p' ≠ p := fun hpp => hoff c' (hpp ▸ hc')
      rw [resume_proc_ne hpp]
      exact ⟨c', p', rfl, (update_of_ne hcc ..).trans hc', hp', hph⟩
    · rw [resume_field wakes fun _ _ => rfl]
      intro q hq
      obtain ⟨c', hc', hl⟩ := hok.wakes q hq
      refine ⟨c', hwhere t c' hc' ?_, hl⟩
      rintro rfl
      rw [hwakes] at hq
      cases hq
    · rw [resume_field blames fun _ _ => rfl]
      intro q hq
      refine (hok.blames q hq).imp ?_ id
      rintro ⟨hne, c', hc', hl⟩
      refine ⟨hne, c', hwhere t c' hc' ?_, hl⟩
      rintro rfl
      rw [hblames] at hq
      cases hq
    · rw [resume_field tested fun _ _ => rfl]
      exact hok.tested
  · intro t t' q
    rw [resume_field child fun _ _ => rfl, resume_field child fun _ _ => rfl]
    exact h.uniq t t' q

theorem Marks.swtch (hlocks : Locks s G) (hc : s.cur c = some p)
    (hleave : (G (.proc p)).phase = .leave) (hheld : (G (.proc p)).held = [.proc p])
    (hwakes : (G (.proc p)).wakes = none) : Marks (s.setCur c none) G := by
  have hwhere : ∀ t c', s.thr c' = t → t ≠ .proc p → (s.setCur c none).thr c' = t := by
    rintro t c' rfl ht
    refine thr_setCur ?_
    rintro rfl
    exact ht (thr_of_cur hc)
  refine ⟨fun t => ?_, h.uniq⟩
  have hok := h.ok t
  refine ⟨hok.child, ?_, ?_, ?_, hok.tested⟩
  · intro l hl
    obtain ⟨c', p', rfl, hc', hp', hph⟩ := hok.drowsy l hl
    have hcc : c' ≠ c := by
      rintro rfl
      rw [hc] at hc'
      rw [← Option.some.inj hc', hleave] at hph
      cases hph
    exact ⟨c', p', rfl, (update_of_ne hcc ..).trans hc', hp', hph⟩
  · intro q hq
    obtain ⟨c', hc', hl⟩ := hok.wakes q hq
    refine ⟨c', hwhere t c' hc' ?_, hl⟩
    rintro rfl
    rw [hwakes] at hq
    cases hq
  · intro q hq
    refine (hok.blames q hq).imp ?_ id
    rintro ⟨hne, c', hc', hl⟩
    refine ⟨hne, c', hwhere t c' hc' ?_, hl⟩
    rintro rfl
    -- the process has only its own lock
    have hmem := (hlocks.held c' _).mpr hl
    rw [hc', hheld] at hmem
    exact hne (by rw [Lock.proc.inj (List.mem_singleton.mp hmem)])

end

end MarkSteps

/-! ### Sleepers: every step -/

section ChanSteps

variable {s s' : Sys n C} {G G' : Thread n C → Priv n} {a a' : Aux n} {c : C} {l : Lock n} {p q : Fin n} {ch : Chan n}

theorem Chans.mono (h : Chans s G a) (hasleep : ∀ ch p, Asleep s' G' ch p → Asleep s G ch p)
    (hcond : ∀ i, s'.lock (.cond i) = none → s'.k.cond i = true → s.lock (.cond i) = none ∧ s.k.cond i = true)
    (hpassed : ∀ ch p, s'.lock (lockOf ch) ≠ none → a'.passed ch p = true →
      s.lock (lockOf ch) ≠ none ∧ a.passed ch p = true) : Chans s' G' a' where
  cond i p hl hc hs := h.cond i p (hcond i hl hc).1 (hcond i hl hc).2 (hasleep _ p hs)
  passed ch p hl hp hs := h.passed ch p (hpassed ch p hl hp).1 (hpassed ch p hl hp).2 (hasleep ch p hs)

theorem Asleep.mono (hstate : s'.k.state p = .sleeping → s.k.state p = .sleeping ∧ s'.k.chan p = s.k.chan p)
    (hdrowsy : (G' (.proc p)).drowsy = (G (.proc p)).drowsy ∨ (G' (.proc p)).drowsy = none)
    (h : Asleep s' G' ch p) : Asleep s G ch p := by
  rcases h with ⟨h₁, h₂⟩ | h
  · exact .inl ⟨(hstate h₁).1, (hstate h₁).2 ▸ h₂⟩
  rcases hdrowsy with hd | hd
  · exact .inr (hd ▸ h)
  · rw [hd] at h
    cases h

/-- `sleep` had released the lock of the channel before the process became SLEEPING. -/
theorem Asleep.moves [NeZero n] [DecidableEq C] {st : PState} {g : Priv n}
    (hmv : Moves (s.cur c) ⟨G (s.thr c), s.k, a⟩ q st g a')
    (h : Asleep (s.move q st) (update G (s.thr c) g) ch p) : Asleep s G ch p := by
  have hdrowsy : g.drowsy = (G (s.thr c)).drowsy ∨ g.drowsy = none := by
    cases hmv with
    | sleep => exact .inr rfl
    | _ => exact .inl rfl
  have hd : (update G (s.thr c) g (.proc p)).drowsy = some (lockOf ch) →
      (G (.proc p)).drowsy = some (lockOf ch) := by
    by_cases ht : .proc p = s.thr c
    · rw [ht, update_self]
      rcases hdrowsy with hd | hd <;> rw [hd]
      · exact id
      · exact nofun
    · rw [update_of_ne ht]
      exact id
  rcases h with ⟨h₁, h₂⟩ | h
  · rw [move_state] at h₁
    rw [move_rest.2.2.1] at h₂
    rcases eq_or_ne p q with rfl | hpq
    · rw [update_self] at h₁
      subst h₁
      cases hmv with
      | sleep ch' hself hrun hch hok =>
        obtain rfl : ch' = ch := Option.some.inj (hch.symm.trans h₂)
        rw [thr_of_cur hself] at hok
        exact .inr hok.drowsy
    · rw [update_of_ne hpq] at h₁
      exact .inl ⟨h₁, h₂⟩
  · exact .inr (hd h)

variable [DecidableEq C]

theorem Chans.acquire (h : Chans s G a) (hl : s.lock l = none) (held : List (Lock n)) (m : Nat) :
    Chans ((s.setLock l (some c)).setNoff c m) (update G (s.thr c) ((G (s.thr c)).setHeld held))
      (a.lock s.k l) := by
  have hasleep : ∀ ch p, Asleep ((s.setLock l (some c)).setNoff c m)
      (update G (s.thr c) ((G (s.thr c)).setHeld held)) ch p → Asleep s G ch p := by
    intro ch p hs
    refine Asleep.mono (fun hst => ⟨hst, rfl⟩) (.inl ?_) hs
    exact update_field (g := (G (s.thr c)).setHeld held) drowsy rfl _
  have hlock : ∀ l', l' ≠ l → ((s.setLock l (some c)).setNoff c m).lock l' = s.lock l' := fun l' hl' =>
    update_of_ne hl' ..
  constructor
  · intro i p hi hc hs
    refine h.cond i p ?_ hc (hasleep _ p hs)
    by_cases hil : .cond i = l
    · rw [hil, hl]
    · rw [← hlock _ hil, hi]
  · intro ch p hch hp hs
    replace hs := hasleep ch p hs
    by_cases hcl : lockOf ch = l
    · subst hcl
      cases ch with
      | cond i =>
        have hc : s.k.cond i = true := by simpa [Aux.lock, lockOf] using hp
        exact h.cond i p hl hc hs
      | _ => simp [Aux.lock, lockOf] at hp
    · have hif : (a.lock s.k l).passed ch p = a.passed ch p := if_neg hcl
      rw [hif] at hp
      rw [hlock _ hcl] at hch
      exact h.passed ch p hch hp hs

/-- What is asleep after a lock has been released. -/
theorem Asleep.release {m : Nat} (h : Asleep ((s.setLock l none).setNoff c m)
      (update G (s.thr c) ((G (s.thr c)).unlock (s.cur c) l)) ch p) :
    Asleep s G ch p ∨ lockOf ch = l ∧ s.cur c = some p ∧ Commits (s.cur c) (G (s.thr c)) := by
  rcases h with h | h
  · exact .inl (.inl h)
  by_cases ht : .proc p = s.thr c
  · rw [ht, update_self, unlock] at h
    split at h
    · rename_i hcom
      exact .inr ⟨(Option.some.inj h).symm, cur_of_thr ht.symm, hcom.1⟩
    · exact .inl (.inr (ht ▸ h))
  · rw [update_of_ne ht] at h
    exact .inl (.inr h)

theorem Chans.release [NeZero n] (h : Chans s G a) (hlocks : Locks s G) (hstack : Stacks s G) (hmarks : Marks s G)
    (hl : l ∈ (G (s.thr c)).held) (hgives : Gives (s.cur c) ⟨G (s.thr c), s.k, a⟩ l) (m : Nat) :
    Chans ((s.setLock l none).setNoff c m) (update G (s.thr c) ((G (s.thr c)).unlock (s.cur c) l))
      (a.unlock (G (s.thr c)).held s.k l) := by
  have hlc : s.lock l = some c := (hlocks.held c l).mp hl
  have hlock : ∀ l', l' ≠ l → ((s.setLock l none).setNoff c m).lock l' = s.lock l' := fun l' hl' =>
    update_of_ne hl' ..
  constructor
  · intro i p hi hc hs
    by_cases hil : .cond i = l
    · subst hil
      obtain ⟨hg₁, hg₂⟩ := hgives
      obtain ⟨hpass, hcalm⟩ := hg₁ hc
      rcases hs.release with hs | ⟨-, -, hcom⟩
      · rcases hpass p with hp | hp
        · have hne : s.lock (lockOf (.cond i)) ≠ none := fun hn => absurd (hlc.symm.trans hn) nofun
          exact h.passed (.cond i) p hne hp hs
        -- the thread itself is RUNNING
        obtain ⟨hrun, hdrowsy⟩ := hcalm (by rw [hp]; exact nofun)
        rw [thr_of_cur hp] at hrun hdrowsy
        rcases hs with ⟨hst, -⟩ | hd
        · exact absurd (hst.symm.trans (hstack.running_of_run hp hrun)) nofun
        · rw [show (G (.proc p)).drowsy = none from hdrowsy] at hd
          cases hd
      · exact absurd (hc.symm.trans (hg₂ hcom)) nofun
    · rcases hs.release with hs | ⟨hcl, -⟩
      · exact h.cond i p ((hlock _ hil).symm.trans hi) hc hs
      · exact hil hcl
  · intro ch p hch hp hs
    have hcl : lockOf ch ≠ l := by
      rintro rfl
      exact hch (update_self ..)
    rw [hlock _ hcl] at hch
    rcases hs.release with hs₀ | ⟨hcl', -⟩
    · cases l with
      | proc q =>
        by_cases hpass : p = q ∧ lockOf ch ∈ (G (s.thr c)).held ∧
            ¬ (s.k.state q = .sleeping ∧ s.k.chan q = some ch)
        · obtain ⟨rfl, -, hnot⟩ := hpass
          rcases hs₀ with hs₀ | hd
          · exact hnot hs₀
          -- a process that is about to sleep has its own lock
          obtain ⟨c', p', ht, hc', hp', -⟩ := (hmarks.ok (.proc p)).drowsy _ hd
          obtain rfl := Thread.proc.inj ht
          obtain rfl : c' = c := Option.some.inj (hp'.symm.trans hlc)
          have hnone := (hgives.2.1 hc').2
          rw [thr_of_cur hc', hd] at hnone
          cases hnone
        · have hif : (a.unlock (G (s.thr c)).held s.k (.proc q)).passed ch p = a.passed ch p := if_neg hpass
          rw [hif] at hp
          exact h.passed ch p hch hp hs₀
      | _ => exact h.passed ch p hch hp hs₀
    · exact hcl hcl'

end ChanSteps

end Xv6.Sched
