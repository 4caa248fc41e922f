/-
Xv6/ProcStep.lean

The rules are sound.

A thread whose code keeps to the rules keeps the invariant (`Pool`) with every
operation, and it changes only what its locks protect (`Local`), so that the
views of the other threads stay right.
-/
import Xv6.ProcKin

namespace Xv6.Sched

open Function Priv

variable {n : Nat} {C : Type} [DecidableEq C] [NeZero n] {strict fair : Prop} {s s' : Sys n C}
  {G G' : Thread n C → Priv n} {a a' : Aux n} {c : C} {l : Lock n} {p q : Fin n} {g : Priv n}

/-! ### The invariant, operation by operation -/

namespace Pool

section

variable (h : Pool strict fair s G a)

include h

omit [DecidableEq C] in
/-- What the invariant does not speak of, or only under a lock, may change. -/
theorem congr (hcur : s'.cur = s.cur) (hlock : s'.lock = s.lock)
    (hnoff : s'.noff = s.noff) (hcproc : s'.cproc = s.cproc) (hstate : s'.k.state = s.k.state)
    (hwindow : s'.k.window = s.k.window) (hparent : s'.k.parent = s.k.parent)
    (hchan : ∀ p, s.k.state p = .sleeping → s'.k.chan p = s.k.chan p)
    (hcond : ∀ i, s.lock (.cond i) = none → s'.k.cond i = s.k.cond i)
    (hkilled : ∀ q, s'.k.killed q = true → s.k.killed q = true)
    (hlife : ∀ q, Sched.life q s'.k.log = Sched.life q s.k.log)
    (hborn : ∀ q, born q s'.k.log = born q s.k.log) (hblamed : ∀ q, Blamed q s.k.log → Blamed q s'.k.log)
    (hfree : ∀ q, s.lock (.proc q) = none → s'.k.pid q = s.k.pid q ∧ s'.k.xstate q = s.k.xstate q)
    (hkilling : ∀ q, s.lock (.proc q) ≠ none → s'.k.killing q = s.k.killing q) :
    Pool strict fair s' G a := by
  have hthr : ∀ c, s'.thr c = s.thr c := fun c => by rw [Sys.thr, Sys.thr, hcur]
  have hasleep : ∀ ch p, Asleep s' G ch p → Asleep s G ch p := by
    intro ch p hs
    refine Asleep.mono (fun hst => ?_) (.inl rfl) hs
    rw [hstate] at hst
    exact ⟨hst, hchan p hst⟩
  constructor
  · exact h.locks.congr hcur hlock hnoff fun _ => rfl
  · apply h.stack.congr hcur hcproc
    · exact fun p hp => hstate ▸ hp
    · exact fun c' _ hat => hat.mono (fun p _ hp => hlock ▸ hp) fun p _ h₁ h₂ => ⟨hstate ▸ h₁, hcur ▸ h₂⟩
    · exact fun c' p _ hat => hat.mono (fun _ hp => hlock ▸ hp) (by rw [hstate])
    · exact fun _ => rfl
    · exact fun _ _ => rfl
  · refine ⟨fun t => ?_, h.marks.uniq⟩
    apply (h.marks.ok t).mono hcur
    · exact fun _ _ _ hl => hlock ▸ hl
    · exact fun _ _ hq => hstate ▸ hq
    · exact fun _ _ hp => hstate ▸ hp
    · exact fun p _ => congrFun hwindow p
  · apply h.chans.mono hasleep
    · intro i hl hc
      rw [hlock] at hl
      exact ⟨hl, hcond i hl ▸ hc⟩
    · exact fun _ _ hl hp => ⟨hlock ▸ hl, hp⟩
  · apply h.kin.mono hstate hparent
    · exact fun _ _ hq => ⟨hq, rfl⟩
    · exact fun r => hasleep _ r
    · rw [hlock]
    · rfl
    · rfl
    · exact fun _ _ hq => .inl hq
  · apply h.life.mono
    · exact fun _ hq => hlock ▸ hq
    · intro q hq
      rw [hlock] at hq
      exact ⟨congrFun hstate q, (hfree q hq).1, (hfree q hq).2, hlife q⟩
    · intro q
      rw [hlife q]
      exact h.life.order q
    · exact fun q hq => .inl ⟨hstate ▸ hq, hborn q⟩
  · apply h.kills.mono
    · exact fun q hq => hstate ▸ hq
    · exact fun q _ hb => hblamed q hb
    · exact hkilled
    · exact fun _ _ hq => hq
    · exact fun p hp => hwindow ▸ hp
    · intro p ch hst hch _ _
      rw [hstate] at hst
      exact ⟨hst, (hchan p hst).symm.trans hch⟩
    · intro p c' hc hw
      rw [hlock, hthr, hkilling p (by rw [hc]; rintro ⟨⟩)]
      exact ⟨hc, hw, fun hk => hk⟩

variable {k : Store n}

omit [DecidableEq C] in
theorem setK (hstate : k.state = s.k.state) (hwindow : k.window = s.k.window) (hparent : k.parent = s.k.parent)
    (hchan : ∀ p, s.k.state p = .sleeping → k.chan p = s.k.chan p)
    (hcond : ∀ i, s.lock (.cond i) = none → k.cond i = s.k.cond i)
    (hkilled : ∀ q, k.killed q = true → s.k.killed q = true) (hlife : ∀ q, Sched.life q k.log = Sched.life q s.k.log)
    (hborn : ∀ q, born q k.log = born q s.k.log) (hblamed : ∀ q, Blamed q s.k.log → Blamed q k.log)
    (hfree : ∀ q, s.lock (.proc q) = none → k.pid q = s.k.pid q ∧ k.xstate q = s.k.xstate q)
    (hkilling : ∀ q, s.lock (.proc q) ≠ none → k.killing q = s.k.killing q) :
    Pool strict fair (s.setK k) G a :=
  @congr n C _ strict fair s (s.setK k) G a h rfl rfl rfl rfl hstate hwindow hparent hchan hcond hkilled hlife hborn
    hblamed hfree hkilling

omit [DecidableEq C] in
/-- The invariant does not speak of the code. -/
theorem code (hcur : s'.cur = s.cur) (hlock : s'.lock = s.lock)
    (hnoff : s'.noff = s.noff) (hcproc : s'.cproc = s.cproc) (hk : s'.k = s.k) : Pool strict fair s' G a := by
  apply h.congr hcur hlock hnoff hcproc <;> rw [hk] <;> simp

omit [DecidableEq C] in
/-- The store and the locks stay, and nothing is added to the notes about them. -/
theorem quiet (hk : s'.k = s.k) (hlock : s'.lock = s.lock) (hlocks : Locks s' G')
    (hstack : Stacks s' G') (hmarks : Marks s' G')
    (hdrowsy : ∀ p, (G' (.proc p)).drowsy = (G (.proc p)).drowsy ∨ (G' (.proc p)).drowsy = none)
    (hchild : ∀ t q, (G' t).child = some q → (G t).child = some q ∧ (G' t).linked = (G t).linked)
    (hblames : ∀ t q, (G' t).blames = some q → (G t).blames = some q)
    (hwakes : ∀ c p, (G (s.thr c)).wakes = some p → (G' (s'.thr c)).wakes = some p) : Pool strict fair s' G' a := by
  have hasleep : ∀ ch p, Asleep s' G' ch p → Asleep s G ch p := fun ch p hs =>
    Asleep.mono (fun hst => ⟨hk ▸ hst, by rw [hk]⟩) (hdrowsy p) hs
  refine ⟨hlocks, hstack, hmarks, ?_, ?_, ?_, ?_⟩
  · apply h.chans.mono hasleep
    · exact fun i hl hc => ⟨hlock ▸ hl, hk ▸ hc⟩
    · exact fun _ _ hl hp => ⟨hlock ▸ hl, hp⟩
  · apply h.kin.mono (by rw [hk]) (by rw [hk]) hchild (fun r => hasleep _ r) (by rw [hlock]) rfl rfl
    exact fun _ _ hq => .inl hq
  · constructor
    · rw [hlock, hk]
      exact h.life.settled
    · rw [hk]
      exact h.life.order
    · rw [hk]
      exact h.life.born
  · apply h.kills.mono
    · exact fun q hq => hk ▸ hq
    · exact fun q _ hb => hk ▸ hb
    · exact fun q hq => hk ▸ hq
    · exact hblames
    · exact fun p hp => hk ▸ hp
    · exact fun p ch hst hch _ _ => ⟨hk ▸ hst, hk ▸ hch⟩
    · intro p c' hc hw
      rw [hlock, hk]
      exact ⟨hc, hwakes c' p hw, id⟩

theorem acquire (hl : s.lock l = none) :
    Pool strict fair ((s.setLock l (some c)).setNoff c (s.noff c + 1))
      (update G (s.thr c) ((G (s.thr c)).setHeld (l :: (G (s.thr c)).held))) (a.lock s.k l) where
  locks := h.locks.acquire h.stack hl
  stack := by
    apply h.stack.acquire hl
    rfl
  marks := h.marks.acquire hl _ _
  chans := h.chans.acquire hl _ _
  kin := h.kin.acquire hl _ _
  life := h.life.acquire _
  kills := h.kills.acquire hl _ _

theorem unlock (hl : l ∈ (G (s.thr c)).held) (hgives : Gives (s.cur c) ⟨G (s.thr c), s.k, a⟩ l) :
    Pool strict fair ((s.setLock l none).setNoff c (s.noff c - 1))
      (update G (s.thr c) ((G (s.thr c)).unlock (s.cur c) l)) (a.unlock (G (s.thr c)).held s.k l) where
  locks := h.locks.release h.stack hl (unlock_held l)
  stack := by
    apply h.stack.release ((h.locks.held c l).mp hl)
    · rw [Priv.unlock]
      split <;> rfl
    · rintro p rfl hc
      exact (hgives.2.1 hc).1
    · rintro p rfl hc
      exact hgives.2.2.1 hc
  marks := h.marks.release h.locks hl hgives _
  chans := h.chans.release h.locks h.stack h.marks hl hgives _
  kin := h.kin.release h.chans h.locks hl hgives _
  life := h.life.release hgives _
  kills := h.kills.release h.locks hl hgives _

theorem release (hl : l ∈ (G (s.thr c)).held) (hgives : Gives (s.cur c) ⟨G (s.thr c), s.k, a⟩ l) :
    Pool strict fair (((s.setLock l none).setNoff c (s.noff c - 1)).setK (s.k.endKill l))
      (update G (s.thr c) ((G (s.thr c)).unlock (s.cur c) l)) (a.unlock (G (s.thr c)).held s.k l) := by
  obtain ⟨h₁, h₂, h₃, h₄, h₅, h₆, h₇, h₈, h₉⟩ := s.k.endKill_rest l
  apply (h.unlock hl hgives).setK
  · exact h₁
  · exact h₉
  · exact h₃
  · exact fun p _ => congrFun h₄ p
  · exact fun i _ => congrFun h₇ i
  · exact fun q hq => h₅ ▸ hq
  · exact fun q => congrArg (Sched.life q) h₈
  · exact fun q => congrArg (born q) h₈
  · exact fun q hb => h₈ ▸ hb
  · exact fun q _ => ⟨congrFun h₂ q, congrFun h₆ q⟩
  · intro q hq
    cases l with
    | proc q' =>
      have hne : q ≠ q' := by
        rintro rfl
        exact hq (update_self ..)
      exact update_of_ne hne ..
    | _ => rfl

/-- **A process changes its state.** -/
theorem moves {st : PState} (hq : .proc q ∈ (G (s.thr c)).held)
    (hmv : Moves (s.cur c) ⟨G (s.thr c), s.k, a⟩ q st g a') :
    Pool strict fair (s.move q st) (update G (s.thr c) g) a' := by
  have hl : s.lock (.proc q) = some c := (h.locks.held c _).mp hq
  have hheld : g.held = (G (s.thr c)).held := by cases hmv <;> rfl
  refine ⟨?_, h.stack.moves h.marks hl hmv, h.marks.moves h.stack hmv, ?_, h.kin.moves h.chans h.locks h.stack hmv,
    h.life.moves h.stack h.marks hl hmv, h.kills.moves h.marks hl hmv⟩
  · exact h.locks.congr rfl rfl rfl fun c' => update_field held hheld _
  · apply h.chans.mono
    · exact fun ch p hs => hs.moves hmv
    · intro i hi hc
      rw [move_rest.2.2.2.2.2.1] at hc
      exact ⟨hi, hc⟩
    · intro ch p hl hp
      refine ⟨hl, ?_⟩
      have hpass : a'.passed = a.passed := by cases hmv <;> rfl
      exact hpass ▸ hp

/-- **A process gets a new parent.** -/
theorem adopts {o : Option (Fin n)} (had : Adopts (s.cur c) ⟨G (s.thr c), s.k, a⟩ q o g a') :
    Pool strict fair (s.setK (s.k.setParent q o)) (update G (s.thr c) g) a' := by
  have hfields : g.held = (G (s.thr c)).held ∧ g.phase = (G (s.thr c)).phase ∧ g.child = (G (s.thr c)).child ∧
      g.drowsy = (G (s.thr c)).drowsy ∧ g.wakes = (G (s.thr c)).wakes ∧ g.blames = (G (s.thr c)).blames ∧
      g.tested = (G (s.thr c)).tested ∧ a'.passed = a.passed := by
    cases had with
    | link p _ _ _ hchild => exact ⟨rfl, rfl, hchild.symm, rfl, rfl, rfl, rfl, rfl⟩
    | _ => exact ⟨rfl, rfl, rfl, rfl, rfl, rfl, rfl, rfl⟩
  obtain ⟨hheld, hphase, hchild, hdrowsy, hwakes, hblames, htested, hpassed⟩ := hfields
  refine ⟨?_, ?_, ?_, ?_, h.kin.adopts h.locks h.stack h.marks had, ?_, ?_⟩
  · exact h.locks.congr rfl rfl rfl fun c' => update_field held hheld _
  · apply h.stack.congr
    · rfl
    · rfl
    · exact fun _ hp => hp
    · exact fun _ _ hat => hat
    · exact fun _ _ _ hat => hat
    · exact update_field phase hphase
    · exact fun t _ => update_field held hheld t
  · apply h.marks.note
    · rfl
    · rfl
    · rfl
    · exact fun _ _ => rfl
    · obtain ⟨h₁, h₂, h₃, h₄, h₅⟩ :=
        (h.marks.ok _).priv hchild hdrowsy hwakes hblames htested fun hph _ => hphase.trans hph
      exact ⟨h₁, h₂, h₃, h₄, h₅⟩
    · exact hchild
  · apply h.chans.mono
    · intro ch p hs
      exact Asleep.mono (fun hst => ⟨hst, rfl⟩) (.inl (update_field drowsy hdrowsy _)) hs
    · exact fun _ hl hc => ⟨hl, hc⟩
    · exact fun ch p hl hp => ⟨hl, hpassed ▸ hp⟩
  · exact ⟨h.life.settled, h.life.order, h.life.born⟩
  · apply h.kills.mono
    · exact fun _ hq => hq
    · exact fun _ _ hb => hb
    · exact fun _ hq => hq
    · intro t q hq
      rwa [update_field blames hblames] at hq
    · exact fun _ hp => hp
    · exact fun _ _ hst hch _ _ => ⟨hst, hch⟩
    · intro p c' hc hw
      refine ⟨hc, ?_, fun hk => hk⟩
      rw [update_field wakes hwakes]
      exact hw

/-- A thread changes other notes than those about locks, switches and children. -/
theorem tweak (hstate : k.state = s.k.state)
    (hparent : k.parent = s.k.parent) (hchan : k.chan = s.k.chan) (hcond : k.cond = s.k.cond)
    (hwindow : ∀ p, s.thr c ≠ .proc p → k.window p = s.k.window p)
    (hsame : g.held = (G (s.thr c)).held ∧ g.phase = (G (s.thr c)).phase ∧ g.child = (G (s.thr c)).child ∧
      g.linked = (G (s.thr c)).linked ∧ g.drowsy = (G (s.thr c)).drowsy)
    (hself : MarkOk (s.setK k) (s.thr c) g) (hlife : Life (s.setK k))
    (hkills : Kills strict fair (s.setK k) (update G (s.thr c) g)) :
    Pool strict fair (s.setK k) (update G (s.thr c) g) a := by
  obtain ⟨hheld, hphase, hchild, hlinked, hdrowsy⟩ := hsame
  have hasleep : ∀ ch p, Asleep (s.setK k) (update G (s.thr c) g) ch p → Asleep s G ch p := fun ch p hs =>
    Asleep.mono (fun hst => ⟨hstate ▸ hst, congrFun hchan p⟩) (.inl (update_field drowsy hdrowsy _)) hs
  refine ⟨?_, ?_, ?_, ?_, ?_, hlife, hkills⟩
  · exact h.locks.congr rfl rfl rfl fun c' => update_field held hheld _
  · apply h.stack.congr
    · rfl
    · rfl
    · exact fun p hp => hstate ▸ hp
    · exact fun c' _ hat => hat.mono (fun p _ hp => hp) fun p _ h₁ h₂ => ⟨hstate ▸ h₁, h₂⟩
    · exact fun c' p _ hat => hat.mono (fun _ hp => hp) (by simp [hstate])
    · exact update_field phase hphase
    · exact fun t _ => update_field held hheld t
  · apply h.marks.note
    · rfl
    · rfl
    · exact hstate
    · exact hwindow
    · exact hself
    · exact hchild
  · apply h.chans.mono hasleep
    · exact fun i hl hc => ⟨hl, hcond ▸ hc⟩
    · exact fun _ _ hl hp => ⟨hl, hp⟩
  · apply h.kin.mono
    · exact hstate
    · exact hparent
    · intro t q hq
      rw [update_field child hchild] at hq
      exact ⟨hq, update_field linked hlinked t⟩
    · exact fun r => hasleep _ r
    · rfl
    · rfl
    · rfl
    · exact fun _ _ hq => .inl hq

omit [DecidableEq C] in
/-- A process that is RUNNING is alive. -/
theorem alive_of_run (hc : s.cur c = some q) (hrun : (G (s.thr c)).phase = .run) : (s.k.state q).alive = true := by
  rw [thr_of_cur hc] at hrun
  rw [h.stack.running_of_run hc hrun]
  rfl

/-- **Something is noted.** -/
theorem notes {ev : Event n} (hn : Notes strict (s.cur c) ⟨G (s.thr c), s.k, a⟩ ev g) :
    Pool strict fair (s.setK (s.k.note ev)) (update G (s.thr c) g) a := by
  have hself := h.marks.ok (s.thr c)
  -- who blames a process has its lock, or is the process
  have hblames : ∀ q, g.blames = some q → (s.thr c ≠ .proc q ∧ ∃ c', s.thr c' = s.thr c ∧ s.lock (.proc q) = some c') ∨
      s.thr c = .proc q ∧ (s.k.state q).alive = true := by
    intro q hq
    cases hn with
    | killed q' pid hq' hrun =>
      obtain rfl := Option.some.inj hq
      by_cases hc : s.cur c = some q'
      · exact .inr ⟨thr_of_cur hc, h.alive_of_run hc (hrun hc)⟩
      · exact .inl ⟨fun ht => hc (cur_of_thr ht), c, rfl, (h.locks.held c _).mp hq'⟩
    | trapped q' hc hrun =>
      obtain rfl := Option.some.inj hq
      exact .inr ⟨thr_of_cur hc, h.alive_of_run hc hrun⟩
    | _ => exact hself.blames q hq
  have hsame : g.held = (G (s.thr c)).held ∧ g.phase = (G (s.thr c)).phase ∧ g.child = (G (s.thr c)).child ∧
      g.linked = (G (s.thr c)).linked ∧ g.drowsy = (G (s.thr c)).drowsy := by
    cases hn <;> exact ⟨rfl, rfl, rfl, rfl, rfl⟩
  have hrest : g.wakes = (G (s.thr c)).wakes ∧ g.tested = (G (s.thr c)).tested := by
    cases hn <;> exact ⟨rfl, rfl⟩
  apply h.tweak
  · rfl
  · rfl
  · rfl
  · rfl
  · exact fun _ _ => rfl
  · exact hsame
  · refine ⟨?_, ?_, ?_, hblames, ?_⟩
    · rw [hsame.2.2.1]
      exact hself.child
    · rw [hsame.2.2.2.2, hsame.2.1]
      exact hself.drowsy
    · rw [hrest.1]
      exact hself.wakes
    · rw [hrest.2]
      exact hself.tested
  · exact h.life.notes h.locks hn
  · exact h.kills.notes h.life h.stack hn

/-- `p->killed` is set. -/
theorem setKilled (hblames : (G (s.thr c)).blames = some q) (hfair : fair → s.k.window q = false)
    (hw : (.proc q ∈ (G (s.thr c)).held ∧ (G (s.thr c)).wakes = none ∧
        g = (if s.k.state q = .sleeping then (G (s.thr c)).setWakes (some q) else G (s.thr c)).setBlames none) ∨
      (s.cur c = some q ∧ (G (s.thr c)).phase = .run ∧ g = (G (s.thr c)).setBlames none))
    {x : Bool} (hx : s.lock (.proc q) = some c → x = true) :
    Pool strict fair (s.setK ((s.k.setKilled q true).setKilling q x)) (update G (s.thr c) g) a := by
  have hself := h.marks.ok (s.thr c)
  have hsame : g.held = (G (s.thr c)).held ∧ g.phase = (G (s.thr c)).phase ∧ g.child = (G (s.thr c)).child ∧
      g.linked = (G (s.thr c)).linked ∧ g.drowsy = (G (s.thr c)).drowsy := by
    rcases hw with ⟨-, -, rfl⟩ | ⟨-, -, rfl⟩
    · split <;> exact ⟨rfl, rfl, rfl, rfl, rfl⟩
    · exact ⟨rfl, rfl, rfl, rfl, rfl⟩
  have hrest : g.blames = none ∧ g.tested = (G (s.thr c)).tested := by
    rcases hw with ⟨-, -, rfl⟩ | ⟨-, -, rfl⟩
    · split <;> exact ⟨rfl, rfl⟩
    · exact ⟨rfl, rfl⟩
  apply h.tweak
  · rfl
  · rfl
  · rfl
  · rfl
  · exact fun _ _ => rfl
  · exact hsame
  · refine ⟨?_, ?_, ?_, ?_, ?_⟩
    · rw [hsame.2.2.1]
      exact hself.child
    · rw [hsame.2.2.2.2, hsame.2.1]
      exact hself.drowsy
    · intro q' hq'
      rcases hw with ⟨hq, hnone, rfl⟩ | ⟨-, -, rfl⟩
      · by_cases hst : s.k.state q = .sleeping
        · rw [if_pos hst] at hq'
          obtain rfl := Option.some.inj hq'
          exact ⟨c, rfl, (h.locks.held c _).mp hq⟩
        · rw [if_neg hst] at hq'
          exact hself.wakes q' hq'
      · exact hself.wakes q' hq'
    · rw [hrest.1]
      exact nofun
    · rw [hrest.2]
      exact hself.tested
  · exact ⟨h.life.settled, h.life.order, h.life.born⟩
  · refine h.kills.setKilled hblames hrest.1 hfair (hw.imp ?_ ?_) hx
    · rintro ⟨hq, hnone, rfl⟩
      exact ⟨(h.locks.held c _).mp hq, hnone, fun hst => by rw [if_pos hst]; rfl⟩
    · rintro ⟨hc, hrun, rfl⟩
      rw [thr_of_cur hc] at hrun
      exact ⟨fun hst => absurd (hst.symm.trans (h.stack.running_of_run hc hrun)) nofun, rfl⟩

/-- The result of a test of `p->killed` is noted, or forgotten. -/
theorem setTested (hc : s.cur c = some p) (b : Bool)
    (hb : b = true → s.k.killed p = false ∧ (G (s.thr c)).phase = .run) :
    Pool strict fair (s.setK (s.k.setWindow p b)) (update G (s.thr c) ((G (s.thr c)).setTested b)) a := by
  have hself := h.marks.ok (s.thr c)
  have hne : ∀ p', p' ≠ p → (s.k.setWindow p b).window p' = s.k.window p' := fun p' hp' => update_of_ne hp' ..
  apply h.tweak
  · rfl
  · rfl
  · rfl
  · rfl
  · exact fun p' hp' => hne p' fun hpp => hp' (hpp ▸ thr_of_cur hc)
  · exact ⟨rfl, rfl, rfl, rfl, rfl⟩
  · refine ⟨hself.child, hself.drowsy, hself.wakes, hself.blames, fun p' hp' => ?_⟩
    obtain rfl : p = p' := Thread.proc.inj ((thr_of_cur hc).symm.trans hp')
    refine ⟨by simp, fun ht => ?_⟩
    exact h.alive_of_run hc (hb ht).2
  · exact ⟨h.life.settled, h.life.order, h.life.born⟩
  · refine ⟨h.kills.blamed, ?_, ?_, ?_⟩
    · intro hs t q hq
      rw [update_field (g := (G (s.thr c)).setTested b) blames rfl] at hq
      exact h.kills.blames hs t q hq
    · intro hf p' hp'
      rcases eq_or_ne p' p with rfl | hpp
      · rw [show (s.setK (s.k.setWindow p' b)).k.window p' = b from update_self ..] at hp'
        exact (hb hp').1
      · exact h.kills.window hf p' ((hne p' hpp).symm.trans hp')
    · intro hf p' ch hst hch hkl hk
      obtain ⟨c', hc', hw, hki⟩ := h.kills.wakes hf p' ch hst hch hkl hk
      refine ⟨c', hc', ?_, hki⟩
      rw [update_field (g := (G (s.thr c)).setTested b) wakes rfl]
      exact hw

omit [DecidableEq C] in
/-- A process is seen not to be a ZOMBIE. -/
theorem setNz (hq : s.k.state q ≠ .zombie) : Pool strict fair s G (a.setNz q) := by
  refine ⟨h.locks, h.stack, h.marks, ⟨h.chans.cond, h.chans.passed⟩, ?_, h.life, h.kills⟩
  apply h.kin.mono
  · rfl
  · rfl
  · exact fun _ _ hq => ⟨hq, rfl⟩
  · exact fun _ hs => hs
  · rfl
  · rfl
  · rfl
  · intro q' _ hq'
    by_cases hqq : q' = q
    · exact .inr (hqq ▸ hq)
    · left
      simpa [hqq] using hq'

/-- A scheduler sets `c->proc`. -/
theorem setProc (hc : s.cur c = none) {x : Phase n}
    (hph : (∃ p, (G (.sched c)).phase = .picked p ∧ x = .go p) ∨ (∃ p, (G (.sched c)).phase = .back p) ∧ x = .idle) :
    Pool strict fair (s.setCproc c x.proc) (update G (s.thr c) ((G (s.thr c)).setPhase x)) a := by
  have hself := h.marks.ok (s.thr c)
  have hdrowsy : (G (s.thr c)).drowsy = none := by
    by_contra hne
    obtain ⟨l, hl⟩ := Option.ne_none_iff_exists'.mp hne
    obtain ⟨-, p, ht, -⟩ := hself.drowsy l hl
    exact absurd ((thr_of_idle hc).symm.trans ht) nofun
  -- the other notes are as they were
  have hfield : ∀ {α : Type} (f : Priv n → α), f ((G (s.thr c)).setPhase x) = f (G (s.thr c)) →
      ∀ t, f (update G (s.thr c) ((G (s.thr c)).setPhase x) t) = f (G t) := fun f hf => update_field f hf
  apply h.quiet
  · rfl
  · rfl
  · exact h.locks.congr rfl rfl rfl fun c' => hfield held rfl _
  · exact h.stack.setProc (g := (G (s.thr c)).setPhase x) hc hph
  · apply h.marks.note
    · rfl
    · rfl
    · rfl
    · exact fun _ _ => rfl
    · obtain ⟨h₁, h₂, h₃, h₄, h₅⟩ : MarkOk s (s.thr c) ((G (s.thr c)).setPhase x) :=
        hself.priv rfl rfl rfl rfl rfl fun _ hd => absurd hdrowsy hd
      exact ⟨h₁, h₂, h₃, h₄, h₅⟩
    · rfl
  · exact fun p => .inl (hfield drowsy rfl _)
  · exact fun t q hq => ⟨hfield child rfl t ▸ hq, hfield linked rfl t⟩
  · exact fun t q hq => hfield blames rfl t ▸ hq
  · exact fun c' p hw => (hfield wakes rfl _).trans hw

/-- The context of a process is set up. -/
theorem reset (hst : s.k.state q = .used) (hoff : ∀ c, s.cur c ≠ some q) :
    Pool strict fair s (update G (.proc q) (unborn q)) a := by
  have hthr : ∀ c, update G (.proc q) (unborn q) (s.thr c) = G (s.thr c) := fun c =>
    update_of_ne (fun ht => hoff c (cur_of_thr ht)) ..
  have hnew : ∀ t, update G (.proc q) (unborn q) t = unborn q ∨
      update G (.proc q) (unborn q) t = G t := fun t => by
    by_cases ht : t = .proc q
    · exact .inl (by rw [ht, update_self])
    · exact .inr (update_of_ne ht ..)
  refine h.quiet rfl rfl (h.locks.congr rfl rfl rfl fun c => by rw [hthr]) (h.stack.reset hoff) (h.marks.reset hst)
    ?_ ?_ ?_ ?_
  · intro p
    rcases hnew (.proc p) with ht | ht <;> rw [ht]
    · exact .inr rfl
    · exact .inl rfl
  · intro t q' hq'
    rcases hnew t with ht | ht <;> rw [ht] at hq' ⊢
    · cases hq'
    · exact ⟨hq', rfl⟩
  · intro t q' hq'
    rcases hnew t with ht | ht <;> rw [ht] at hq'
    · cases hq'
    · exact hq'
  · intro c p hw
    rw [hthr]
    exact hw

/-- **A CPU switches to a process.** -/
theorem swtchTo (hc : s.cur c = none) (hgo : (G (.sched c)).phase = .go p)
    (hheld : (G (.sched c)).held = [.proc p]) (hwakes : (G (.sched c)).wakes = none)
    (hblames : (G (.sched c)).blames = none) : Pool strict fair (s.setCur c (some p)) (resume G c p) a := by
  refine h.quiet (by rfl) (by rfl) (h.locks.swtchTo h.stack hc hgo hheld) (h.stack.swtchTo hc hgo hheld)
    (h.marks.swtchTo h.stack hc hgo hwakes hblames) ?_ ?_ ?_ ?_
  · exact fun _ => .inl (resume_field drowsy fun _ _ => rfl)
  · intro t q hq
    rw [resume_field child fun _ _ => rfl] at hq
    exact ⟨hq, resume_field linked fun _ _ => rfl⟩
  · intro t q hq
    rwa [resume_field blames fun _ _ => rfl] at hq
  · intro c' r hw
    have hcc : c' ≠ c := by
      rintro rfl
      rw [thr_of_idle hc, hwakes] at hw
      cases hw
    rw [thr_setCur hcc, resume_field wakes fun _ _ => rfl]
    exact hw

/-- **A process switches to the scheduler of its CPU.** -/
theorem swtch (hc : s.cur c = some p) (hleave : (G (.proc p)).phase = .leave)
    (hheld : (G (.proc p)).held = [.proc p]) (hwakes : (G (.proc p)).wakes = none) :
    Pool strict fair (s.setCur c none) G a := by
  refine h.quiet (by rfl) (by rfl) (h.locks.swtch h.stack hc hheld) (h.stack.swtch hc hleave hheld)
    (h.marks.swtch h.locks hc hleave hheld hwakes) ?_ ?_ ?_ ?_
  · exact fun _ => .inl rfl
  · exact fun _ _ hq => ⟨hq, rfl⟩
  · exact fun _ _ hq => hq
  · intro c' r hw
    have hcc : c' ≠ c := by
      rintro rfl
      rw [thr_of_cur hc, hwakes] at hw
      cases hw
    rw [thr_setCur hcc]
    exact hw

end

end Pool

end Xv6.Sched
