/-
Xv6/ProcKin.lean

Parents, the log and `p->killed`, step by step.
-/
import Xv6.ProcNotes

namespace Xv6.Sched

open Function Option

variable {n : Nat} {C : Type}

/-! ### Parents: every step -/

section KinSteps

variable [NeZero n] {s s' : Sys n C} {G G' : Thread n C → Priv n} {a a' : Aux n} {c : C} {l : Lock n} {p q : Fin n}

theorem Kin.mono (h : Kin s G a) (hstate : s'.k.state = s.k.state) (hparent : s'.k.parent = s.k.parent)
    (hchild : ∀ t q, (G' t).child = some q → (G t).child = some q ∧ (G' t).linked = (G t).linked)
    (hasleep : ∀ r, Asleep s' G' (.proc r) r → Asleep s G (.proc r) r) (hwait : s'.lock .wait = s.lock .wait)
    (hdirty : a'.dirty = a.dirty) (hfree : a'.freeing = a.freeing)
    (hnz : ∀ q, s.lock .wait ≠ none → a'.nz q = true → a.nz q = true ∨ s.k.state q ≠ .zombie) : Kin s' G' a' := by
  constructor
  · rw [hstate, hparent]
    exact h.unused
  · intro t q hq
    obtain ⟨h₁, h₂⟩ := hchild t q hq
    rw [hparent, h₂]
    exact h.child t q h₁
  · rw [hstate, hparent]
    exact h.alive
  · rw [hstate, hparent, hfree, hwait]
    exact h.parent
  · rw [hstate]
    exact h.init
  · intro q r hq hr hs
    rw [hstate] at hq
    rw [hparent] at hr
    rw [hwait, hdirty]
    exact h.zombie q r hq hr (hasleep r hs)
  · intro q hw hq
    rw [hwait] at hw
    rw [hstate]
    exact (hnz q hw hq).elim (h.nz q hw) id

variable [DecidableEq C] {g : Priv n}

section

variable (h : Kin s G a)

include h

theorem Kin.acquire (hl : s.lock l = none) (held : List (Lock n)) (m : Nat) :
    Kin ((s.setLock l (some c)).setNoff c m) (update G (s.thr c) ((G (s.thr c)).setHeld held))
      (a.lock s.k l) := by
  have hasleep : ∀ ch p, Asleep ((s.setLock l (some c)).setNoff c m)
      (update G (s.thr c) ((G (s.thr c)).setHeld held)) ch p → Asleep s G ch p := by
    intro ch p hs
    refine Asleep.mono (fun hst => ⟨hst, rfl⟩) (.inl ?_) hs
    exact update_field (g := (G (s.thr c)).setHeld held) Priv.drowsy rfl _
  have hchild : ∀ t, (update G (s.thr c) ((G (s.thr c)).setHeld held) t).child = (G t).child :=
    update_field Priv.child rfl
  have hlinked : ∀ t, (update G (s.thr c) ((G (s.thr c)).setHeld held) t).linked = (G t).linked :=
    update_field Priv.linked rfl
  rcases eq_or_ne l .wait with rfl | hlw
  · constructor
    · exact h.unused
    · intro t q hq
      rw [hchild] at hq
      rw [hlinked]
      exact h.child t q hq
    · exact h.alive
    · exact fun q hq hst => .inl ((h.parent q hq hst).resolve_right fun hw => hw.2 hl)
    · exact h.init
    · exact fun q r hq hr hs => absurd hl (h.zombie q r hq hr (hasleep _ r hs)).1
    · exact nofun
  · apply h.mono
    · rfl
    · rfl
    · intro t q hq
      rw [hchild] at hq
      exact ⟨hq, hlinked t⟩
    · exact fun r => hasleep _ r
    · exact update_of_ne (Ne.symm hlw) ..
    · exact if_neg hlw
    · exact if_neg hlw
    · intro q _ hq
      rw [show (a.lock s.k l).nz = a.nz from if_neg hlw] at hq
      exact .inl hq

theorem Kin.release (hchans : Chans s G a) (hlocks : Locks s G) (hl : l ∈ (G (s.thr c)).held)
    (hgives : Gives (s.cur c) ⟨G (s.thr c), s.k, a⟩ l) (m : Nat) :
    Kin ((s.setLock l none).setNoff c m) (update G (s.thr c) ((G (s.thr c)).unlock (s.cur c) l))
      (a.unlock (G (s.thr c)).held s.k l) := by
  have hlc : s.lock l = some c := (hlocks.held c l).mp hl
  have hfields : ((G (s.thr c)).unlock (s.cur c) l).child = (G (s.thr c)).child ∧
      ((G (s.thr c)).unlock (s.cur c) l).linked = (G (s.thr c)).linked := by
    rw [Priv.unlock]
    split <;> exact ⟨rfl, rfl⟩
  have hchild : ∀ t, (update G (s.thr c) ((G (s.thr c)).unlock (s.cur c) l) t).child = (G t).child :=
    update_field Priv.child hfields.1
  have hlinked : ∀ t, (update G (s.thr c) ((G (s.thr c)).unlock (s.cur c) l) t).linked = (G t).linked :=
    update_field Priv.linked hfields.2
  rcases eq_or_ne l .wait with rfl | hlw
  · obtain ⟨hdirty, hfree, hnz⟩ := hgives
    have hheld : s.lock .wait ≠ none := fun hn => absurd (hlc.symm.trans hn) (by rintro ⟨⟩)
    constructor
    · exact h.unused
    · intro t q hq
      rw [hchild] at hq
      rw [hlinked]
      exact h.child t q hq
    · exact h.alive
    · intro q hq hst
      refine .inl ((h.parent q hq hst).resolve_right fun hw => ?_)
      exact absurd (hfree.symm.trans hw.1) (by rintro ⟨⟩)
    · exact h.init
    · intro q r hq hr hs
      rcases hs.release with hs | ⟨-, hc, hcom⟩
      · -- init has been woken up
        obtain ⟨-, hd, rfl⟩ := h.zombie q r hq hr hs
        exact absurd hs (hchans.passed (.proc initproc) initproc hheld (hdirty hd))
      · -- the thread goes to sleep, and has seen that its children are not ZOMBIEs
        exact absurd hq (h.nz q hheld (hnz hcom r q hc hr))
    · intro q hw
      exact absurd (update_self ..) (show update s.lock .wait none .wait ≠ none from hw)
  · have haux : (a.unlock (G (s.thr c)).held s.k l).dirty = a.dirty ∧
        (a.unlock (G (s.thr c)).held s.k l).freeing = a.freeing ∧
        (a.unlock (G (s.thr c)).held s.k l).nz = a.nz := by
      cases l <;> exact ⟨rfl, rfl, rfl⟩
    apply h.mono
    · rfl
    · rfl
    · intro t q hq
      rw [hchild] at hq
      exact ⟨hq, hlinked t⟩
    · intro r hs
      exact hs.release.resolve_right fun hc => hlw hc.1.symm
    · exact update_of_ne (Ne.symm hlw) ..
    · exact haux.1
    · exact haux.2.1
    · intro q _ hq
      rw [haux.2.2] at hq
      exact .inl hq

/-- **Parents, when a process changes its state.** -/
theorem Kin.moves {st : PState} (hchans : Chans s G a) (hlocks : Locks s G)
    (hstack : Stacks s G) (hmv : Moves (s.cur c) ⟨G (s.thr c), s.k, a⟩ q st g a') :
    Kin (s.move q st) (update G (s.thr c) g) a' := by
  have hne : ∀ q', q' ≠ q → (s.move q st).k.state q' = s.k.state q' := fun q' hq' => by
    rw [move_state, update_of_ne hq']
  have hself : (s.move q st).k.state q = st := by rw [move_state, update_self]
  have hparent : (s.move q st).k.parent = s.k.parent := move_rest.2.1
  have hrun : s.cur c = some q → (G (s.thr c)).phase = .run → s.k.state q = .running := by
    intro hc hph
    rw [thr_of_cur hc] at hph
    exact hstack.running_of_run hc hph
  constructor
  · intro q' hq'
    rw [hparent]
    rcases eq_or_ne q' q with rfl | hqq
    · rw [hself] at hq'
      subst hq'
      cases hmv with
      | abort hst hchild hlinked =>
        by_contra hp
        have htrue := (h.child _ q' hchild).mpr hp
        exact absurd (hlinked.symm.trans htrue) Bool.false_ne_true
      | reap hst hwait hfree hpar => exact hpar
    · exact h.unused q' (hne q' hqq ▸ hq')
  · intro t q' hq'
    rw [hparent]
    by_cases ht : t = s.thr c
    · subst ht
      rw [update_self] at hq' ⊢
      cases hmv with
      | alloc hst =>
        obtain rfl := some.inj hq'
        exact ⟨nofun, fun hp => absurd (h.unused q hst) hp⟩
      | abort | birth => cases hq'
      | _ => exact h.child _ q' hq'
    · rw [update_of_ne ht] at hq' ⊢
      exact h.child t q' hq'
  · intro q' r hr
    rw [hparent] at hr
    rcases eq_or_ne r q with rfl | hrq
    · rw [hself]
      have hal := h.alive q' r hr
      cases hmv with
      | alloc hst | abort hst | reap hst => rw [show s.k.state r = _ from hst] at hal; cases hal
      | exit _ _ _ _ _ _ _ _ hkids => exact absurd hr (hkids q')
      | _ => rfl
    · rw [hne r hrq]
      exact h.alive q' r hr
  · intro q' hinit hst
    rw [hparent]
    rcases eq_or_ne q' q with rfl | hqq
    · rw [hself] at hst
      have hlive : ∀ {x}, s.k.state q' = x → x.alive = true →
          s.k.parent q' ≠ none ∨ a.freeing = some q' ∧ s.lock .wait ≠ none := fun hx hal =>
        h.parent q' hinit (.inl (by rw [hx]; exact hal))
      cases hmv with
      | alloc | abort | reap => rcases hst with hst | hst <;> cases hst
      | wake hst' | pick _ _ hst' => exact hlive hst' rfl
      | birth hchild hctx hlinked => exact .inl ((h.child _ q' hchild).mp hlinked)
      | yield hc hph | sleep _ hc hph | exit hc hph => exact hlive (hrun hc hph) rfl
    · rw [hne q' hqq] at hst
      refine (h.parent q' hinit hst).imp id fun hw => ⟨?_, hw.2⟩
      cases hmv with
      | reap hst' hwait hfree =>
        exact absurd (some.inj (hw.1.symm.trans hfree)) hqq
      | _ => exact hw.1
  · by_cases hqi : initproc = q
    · have hal := h.init
      rw [hqi] at hal ⊢
      rw [hself]
      cases hmv with
      | alloc hst | abort hst | reap hst => rw [show s.k.state q = _ from hst] at hal; cases hal
      | exit _ _ _ hinit => exact absurd hqi.symm hinit
      | _ => rfl
    · rw [hne _ hqi]
      exact h.init
  · intro q' r hq' hr hs
    rw [hparent] at hr
    replace hs := Asleep.moves hmv hs
    rcases eq_or_ne q' q with rfl | hqq
    · rw [hself] at hq'
      subst hq'
      cases hmv with
      | exit _ _ _ _ hwait _ _ _ _ hpar =>
        have hheld : s.lock .wait ≠ none := fun hn => absurd (((hlocks.held c _).mp hwait).symm.trans hn) nofun
        exact absurd hs (hchans.passed (.proc r) r hheld (hpar r hr))
    · rw [hne q' hqq] at hq'
      have hd : a'.dirty = a.dirty := by cases hmv <;> rfl
      rw [hd]
      exact h.zombie q' r hq' hr hs
  · intro q' hw hq'
    rcases eq_or_ne q' q with rfl | hqq
    · rw [hself]
      cases hmv with
      | exit => simp at hq'
      | _ => exact nofun
    · rw [hne q' hqq]
      have hnz : a'.nz q' = a.nz q' := by
        cases hmv with
        | exit => exact update_of_ne hqq ..
        | _ => rfl
      exact h.nz q' hw (hnz ▸ hq')

/-- **Parents, when a process gets a new one.** -/
theorem Kin.adopts {o : Option (Fin n)} (hlocks : Locks s G) (hstack : Stacks s G)
    (hmarks : Marks s G) (had : Adopts (s.cur c) ⟨G (s.thr c), s.k, a⟩ q o g a') :
    Kin (s.setK (s.k.setParent q o)) (update G (s.thr c) g) a' := by
  have hne : ∀ q', q' ≠ q → (s.setK (s.k.setParent q o)).k.parent q' = s.k.parent q' := fun q' hq' =>
    update_of_ne hq' ..
  have hself : (s.setK (s.k.setParent q o)).k.parent q = o := update_self ..
  have hheld : .wait ∈ (G (s.thr c)).held → s.lock .wait ≠ none := fun hwait hn =>
    absurd (((hlocks.held c _).mp hwait).symm.trans hn) nofun
  have hasleep : ∀ ch r, Asleep (s.setK (s.k.setParent q o)) (update G (s.thr c) g) ch r → Asleep s G ch r := by
    intro ch r hs
    refine Asleep.mono (fun hst => ⟨hst, rfl⟩) (.inl ?_) hs
    refine update_field Priv.drowsy ?_ _
    cases had <;> rfl
  cases had with
  | link p hc hrun hwait hchild =>
    obtain ⟨-, -, hst⟩ := (hmarks.ok _).child q hchild
    have hrun' : s.k.state p = .running := by
      rw [thr_of_cur hc] at hrun
      exact hstack.running_of_run hc hrun
    constructor
    · intro q' hq'
      have hqq : q' ≠ q := by
        rintro rfl
        exact absurd (hst.symm.trans hq') nofun
      rw [hne q' hqq]
      exact h.unused q' hq'
    · intro t q' hq'
      by_cases ht : t = s.thr c
      · subst ht
        rw [update_self] at hq' ⊢
        obtain rfl := some.inj hq'
        rw [hself]
        exact ⟨fun _ => nofun, fun _ => rfl⟩
      · rw [update_of_ne ht] at hq' ⊢
        have hqq : q' ≠ q := by
          rintro rfl
          exact ht (hmarks.uniq _ _ q' hq' hchild)
        rw [hne q' hqq]
        exact h.child t q' hq'
    · intro q' r hr
      rcases eq_or_ne q' q with rfl | hqq
      · rw [hself] at hr
        obtain rfl := some.inj hr
        show (s.k.state p).alive = true
        rw [hrun']
        rfl
      · rw [hne q' hqq] at hr
        exact h.alive q' r hr
    · intro q' hinit hst'
      rcases eq_or_ne q' q with rfl | hqq
      · rw [hself]
        exact .inl nofun
      · rw [hne q' hqq]
        exact h.parent q' hinit hst'
    · exact h.init
    · intro q' r hq' hr hs
      have hqq : q' ≠ q := by
        rintro rfl
        exact absurd (hst.symm.trans hq') nofun
      rw [hne q' hqq] at hr
      exact h.zombie q' r hq' hr (hasleep _ r hs)
    · exact h.nz
  | init hwait hpar =>
    constructor
    · intro q' hq'
      have hqq : q' ≠ q := by
        rintro rfl
        exact hpar (h.unused q' hq')
      rw [hne q' hqq]
      exact h.unused q' hq'
    · intro t q' hq'
      rw [update_eq_self] at hq' ⊢
      rcases eq_or_ne q' q with rfl | hqq
      · rw [hself]
        exact ⟨fun _ => nofun, fun _ => (h.child t q' hq').mpr hpar⟩
      · rw [hne q' hqq]
        exact h.child t q' hq'
    · intro q' r hr
      rcases eq_or_ne q' q with rfl | hqq
      · rw [hself] at hr
        obtain rfl := some.inj hr
        exact h.init
      · rw [hne q' hqq] at hr
        exact h.alive q' r hr
    · intro q' hinit hst'
      rcases eq_or_ne q' q with rfl | hqq
      · rw [hself]
        exact .inl nofun
      · rw [hne q' hqq]
        exact h.parent q' hinit hst'
    · exact h.init
    · intro q' r hq' hr hs
      refine ⟨hheld hwait, rfl, ?_⟩
      rcases eq_or_ne q' q with rfl | hqq
      · rw [hself] at hr
        exact (some.inj hr).symm
      · rw [hne q' hqq] at hr
        exact (h.zombie q' r hq' hr (hasleep _ r hs)).2.2
    · exact h.nz
  | abort hchild hlinked =>
    have hnone : s.k.parent q = none := by
      by_contra hp
      exact absurd (hlinked.symm.trans ((h.child _ q hchild).mpr hp)) Bool.false_ne_true
    apply h.mono
    · rfl
    · funext q'
      by_cases hqq : q' = q
      · rw [hqq, hself, hnone]
      · exact hne q' hqq
    · intro t q' hq'
      rw [update_eq_self] at hq' ⊢
      exact ⟨hq', rfl⟩
    · exact fun r => hasleep _ r
    · rfl
    · rfl
    · rfl
    · exact fun _ _ hq => .inl hq
  | reap hq hwait hst hfree =>
    constructor
    · intro q' hq'
      by_cases hqq : q' = q
      · rw [hqq, hself]
      · rw [hne q' hqq]
        exact h.unused q' hq'
    · intro t q' hq'
      rw [update_eq_self] at hq' ⊢
      have hqq : q' ≠ q := by
        rintro rfl
        obtain ⟨-, -, hu⟩ := (hmarks.ok t).child q' hq'
        exact absurd (hu.symm.trans hst) nofun
      rw [hne q' hqq]
      exact h.child t q' hq'
    · intro q' r hr
      by_cases hqq : q' = q
      · rw [hqq, hself] at hr
        cases hr
      · rw [hne q' hqq] at hr
        exact h.alive q' r hr
    · intro q' hinit hst'
      by_cases hqq : q' = q
      · exact .inr ⟨congrArg some hqq.symm, hheld hwait⟩
      · rw [hne q' hqq]
        refine .inl ((h.parent q' hinit hst').resolve_right fun hw => ?_)
        exact absurd (hfree.symm.trans hw.1) nofun
    · exact h.init
    · intro q' r hq' hr hs
      by_cases hqq : q' = q
      · rw [hqq, hself] at hr
        cases hr
      · rw [hne q' hqq] at hr
        exact h.zombie q' r hq' hr (hasleep _ r hs)
    · exact h.nz

end

end KinSteps

/-! ### The table and the log: every step -/

section LifeSteps

variable {s s' : Sys n C} {G : Thread n C → Priv n} {a a' : Aux n} {c : C} {l : Lock n} {p q : Fin n} {g : Priv n}
  {st : PState} {k : Store n}

/-- The process that is in a slot has been created with its pid. -/
theorem born_of_life {pid : Int32} {log : List (Event n)}
    (h : life q log = some (.live pid) ∨ ∃ status, life q log = some (.done pid status)) : born q log = some pid := by
  induction log with
  | nil => rcases h with h | ⟨_, h⟩ <;> cases h
  | cons ev log ih =>
    cases ev with
    | created q' pid' =>
      by_cases hq : q' = q
      · simp only [life, born, if_pos hq] at h ⊢
        split at h
        · rcases h with h | ⟨_, h⟩
          · simpa using h
          · cases h
        · rcases h with h | ⟨_, h⟩ <;> cases h
      · simp only [life, born, if_neg hq] at h ⊢
        exact ih h
    | aborted q' | waited _ _ q' =>
      by_cases hq : q' = q
      · simp only [life, if_pos hq] at h
        split at h <;> rcases h with h | ⟨_, h⟩ <;> cases h
      · simp only [life, if_neg hq] at h
        exact ih h
    | exited q' status' =>
      by_cases hq : q' = q
      · simp only [life, if_pos hq] at h
        split at h
        · rename_i pid' hlive
          rcases h with h | ⟨_, h⟩
          · cases h
          · cases h
            exact ih (.inl hlive)
        · rcases h with h | ⟨_, h⟩ <;> cases h
      · simp only [life, if_neg hq] at h
        exact ih h
    | _ => exact ih h

theorem Settled.born (h : Settled k q) (hst : k.state q ≠ .unused) : born q k.log = some (k.pid q) := by
  rw [Settled] at h
  cases hq : k.state q with
  | unused => exact absurd hq hst
  | zombie =>
    rw [hq] at h
    exact born_of_life (.inr ⟨_, h⟩)
  | _ =>
    rw [hq] at h
    exact born_of_life (.inl h)

theorem Settled.congr {k' : Store n} (h : Settled k q) (hst : k'.state q = k.state q) (hpid : k'.pid q = k.pid q)
    (hx : k'.xstate q = k.xstate q) (hlife : life q k'.log = life q k.log) : Settled k' q := by
  rw [Settled, hst, hpid, hx, hlife]
  exact h

/-- What happens to a slot whose lock is not free does not matter here. -/
theorem Life.mono (h : Life s) (hlock : ∀ q, s'.lock (.proc q) = none → s.lock (.proc q) = none)
    (hfree : ∀ q, s'.lock (.proc q) = none → s'.k.state q = s.k.state q ∧ s'.k.pid q = s.k.pid q ∧
      s'.k.xstate q = s.k.xstate q ∧ life q s'.k.log = life q s.k.log)
    (horder : ∀ q, life q s'.k.log ≠ none)
    (hborn : ∀ q, s'.k.state q ≠ .unused → s.k.state q ≠ .unused ∧ Sched.born q s'.k.log = Sched.born q s.k.log ∨
      Sched.born q s'.k.log ≠ none) : Life s' where
  settled q hq := by
    obtain ⟨h₁, h₂, h₃, h₄⟩ := hfree q hq
    exact (h.settled q (hlock q hq)).congr h₁ h₂ h₃ h₄
  order := horder
  born q hq := by
    rcases hborn q hq with ⟨h₁, h₂⟩ | h₁
    · rw [h₂]
      exact h.born q h₁
    · exact h₁

theorem Life.acquire [DecidableEq C] (h : Life s) (m : Nat) : Life ((s.setLock l (some c)).setNoff c m) := by
  apply h.mono
  · intro q hq
    have hne : .proc q ≠ l := by
      rintro rfl
      exact absurd ((update_self ..).symm.trans hq) nofun
    exact (update_of_ne hne ..).symm.trans hq
  · exact fun _ _ => ⟨rfl, rfl, rfl, rfl⟩
  · exact h.order
  · exact fun q hq => .inl ⟨hq, rfl⟩

theorem Life.release [NeZero n] [DecidableEq C] (h : Life s)
    (hgives : Gives (s.cur c) ⟨G (s.thr c), s.k, a⟩ l) (m : Nat) : Life ((s.setLock l none).setNoff c m) := by
  refine ⟨fun q hq => ?_, h.order, h.born⟩
  by_cases hql : .proc q = l
  · subst hql
    exact hgives.1
  · exact h.settled q ((update_of_ne hql ..).symm.trans hq)

/-- The only way out of the state UNUSED is `allocproc`. -/
theorem Moves.of_unused [NeZero n] (hstack : Stacks s G) (hmarks : Marks s G)
    (hmv : Moves (s.cur c) ⟨G (s.thr c), s.k, a⟩ q st g a') (hst : s.k.state q = .unused) :
    ∃ pid, life q s.k.log = some (.live pid) := by
  have hrun : s.cur c = some q → (G (s.thr c)).phase = .run → False := by
    intro hc hph
    rw [thr_of_cur hc] at hph
    exact absurd (hst.symm.trans (hstack.running_of_run hc hph)) nofun
  cases hmv with
  | alloc _ hlife => exact hlife
  | birth hchild => exact absurd (hst.symm.trans ((hmarks.ok _).child q hchild).2.2) nofun
  | yield hc hph | sleep _ hc hph | exit hc hph => exact (hrun hc hph).elim
  | abort hst' | reap hst' | wake hst' | pick _ _ hst' => exact absurd (hst.symm.trans hst') nofun

theorem Life.moves [NeZero n] (h : Life s) (hstack : Stacks s G) (hmarks : Marks s G)
    (hq : s.lock (.proc q) = some c) (hmv : Moves (s.cur c) ⟨G (s.thr c), s.k, a⟩ q st g a') :
    Life (s.move q st) := by
  obtain ⟨hpid, -, -, -, hx, -, hlog⟩ := @move_rest n C s q st
  apply h.mono
  · exact fun _ hq' => hq'
  · intro q' hq'
    have hne : q' ≠ q := by
      rintro rfl
      exact absurd (hq.symm.trans hq') nofun
    rw [move_state, update_of_ne hne, hpid, hx, hlog]
    exact ⟨rfl, rfl, rfl, rfl⟩
  · rw [hlog]
    exact h.order
  · intro q' hq'
    rw [hlog]
    rcases eq_or_ne q' q with rfl | hqq
    · by_cases hst : s.k.state q' = .unused
      · obtain ⟨pid, hlife⟩ := hmv.of_unused hstack hmarks hst
        right
        rw [born_of_life (.inl hlife)]
        exact nofun
      · exact .inl ⟨hst, rfl⟩
    · rw [move_state, update_of_ne hqq] at hq'
      exact .inl ⟨hq', rfl⟩

theorem Life.notes {strict : Prop} {ev : Event n} (h : Life s) (hlocks : Locks s G)
    (hn : Notes strict (s.cur c) ⟨G (s.thr c), s.k, a⟩ ev g) : Life (s.setK (s.k.note ev)) := by
  have hheld : ∀ {q q'}, .proc q ∈ (G (s.thr c)).held → s.lock (.proc q') = none → q ≠ q' := by
    rintro q _ hq hfree rfl
    exact absurd (((hlocks.held c _).mp hq).symm.trans hfree) (by rintro ⟨⟩)
  apply h.mono
  · exact fun _ hq => hq
  · intro q' hq'
    refine ⟨rfl, rfl, rfl, ?_⟩
    show life q' (ev :: s.k.log) = life q' s.k.log
    cases hn with
    | created _ _ hq | aborted _ hq | exited _ _ _ hq | waited _ _ _ _ _ _ hq => rw [life, if_neg (hheld hq hq')]
    | killed | trapped => rfl
  · intro q'
    have hord := h.order q'
    show life q' (ev :: s.k.log) ≠ none
    cases hn with
    | created q _ _ _ hlife | waited _ _ q _ _ _ _ _ _ _ _ _ hlife =>
      rw [life]
      split
      · rename_i hqq
        subst hqq
        simp [show life q s.k.log = _ from hlife]
      · exact hord
    | aborted q _ _ hlife | exited q _ _ _ hlife =>
      obtain ⟨pid, hlife⟩ := hlife
      rw [life]
      split
      · rename_i hqq
        subst hqq
        simp [show life q s.k.log = _ from hlife]
      · exact hord
    | killed | trapped => exact hord
  · intro q' hq'
    show s.k.state q' ≠ .unused ∧ Sched.born q' (ev :: s.k.log) = Sched.born q' s.k.log ∨ _
    cases hn with
    | created q pid =>
      by_cases hqq : q = q'
      · right
        show Sched.born q' (.created q pid :: s.k.log) ≠ none
        rw [Sched.born, if_pos hqq]
        rintro ⟨⟩
      · left
        rw [Sched.born, if_neg hqq]
        exact ⟨hq', rfl⟩
    | _ => exact .inl ⟨hq', rfl⟩

end LifeSteps

/-! ### `p->killed`: every step -/

section KillSteps

variable {strict fair : Prop} {s s' : Sys n C} {G G' : Thread n C → Priv n} {a a' : Aux n} {c : C} {l : Lock n}
  {p q : Fin n} {ev : Event n}

/-- A process that was created earlier is still to blame. -/
theorem Blamed.cons {log : List (Event n)} (h : Blamed q log) (hev : ∀ pid, ev ≠ .created q pid) :
    Blamed q (ev :: log) := by
  obtain ⟨pid, hborn, hcause⟩ := h
  cases ev with
  | created q' pid' =>
    have hne : q' ≠ q := fun hq => hev pid' (by rw [hq])
    exact ⟨pid, by rw [born, if_neg hne, hborn], hne, hcause⟩
  | killed | trapped => exact ⟨pid, hborn, .inr hcause⟩
  | _ => exact ⟨pid, hborn, hcause⟩

/-- Nothing happens that `killed` has to do with. -/
theorem Kills.mono (h : Kills strict fair s G) (hstate : ∀ q, s'.k.state q = .unused → s.k.state q = .unused)
    (hlog : ∀ q, s.k.state q ≠ .unused → Blamed q s.k.log → Blamed q s'.k.log)
    (hkilled : ∀ q, s'.k.killed q = true → s.k.killed q = true)
    (hblames : ∀ t q, (G' t).blames = some q → (G t).blames = some q)
    (hwindow : ∀ p, s'.k.window p = true → s.k.window p = true)
    (hsleep : ∀ p ch, s'.k.state p = .sleeping → s'.k.chan p = some ch → killable ch = true →
      s'.k.killed p = true → s.k.state p = .sleeping ∧ s.k.chan p = some ch)
    (hwakes : ∀ p c, s.lock (.proc p) = some c → (G (s.thr c)).wakes = some p →
      s'.lock (.proc p) = some c ∧ (G' (s'.thr c)).wakes = some p ∧ (s.k.killing p = true → s'.k.killing p = true)) :
    Kills strict fair s' G' where
  blamed hs q hq := by
    obtain ⟨h₁, h₂⟩ := h.blamed hs q (hkilled q hq)
    exact ⟨fun hu => h₁ (hstate q hu), hlog q h₁ h₂⟩
  blames hs t q hq := by
    obtain ⟨h₁, h₂⟩ := h.blames hs t q (hblames t q hq)
    exact ⟨fun hu => h₁ (hstate q hu), hlog q h₁ h₂⟩
  window hf p hp := by
    have hk := h.window hf p (hwindow p hp)
    by_contra hne
    rw [hkilled p (by simpa using hne)] at hk
    cases hk
  wakes hf p ch hst hch hkl hk := by
    obtain ⟨hst', hch'⟩ := hsleep p ch hst hch hkl hk
    obtain ⟨c, hc, hw, hki⟩ := h.wakes hf p ch hst' hch' hkl (hkilled p hk)
    obtain ⟨hc', hw', hki'⟩ := hwakes p c hc hw
    exact ⟨c, hc', hw', hki' hki⟩

variable [DecidableEq C] {g : Priv n}

section

variable (h : Kills strict fair s G)

include h

theorem Kills.acquire (hl : s.lock l = none) (held : List (Lock n)) (m : Nat) :
    Kills strict fair ((s.setLock l (some c)).setNoff c m)
      (update G (s.thr c) ((G (s.thr c)).setHeld held)) := by
  apply h.mono
  · exact fun _ hq => hq
  · exact fun _ _ hq => hq
  · exact fun _ hq => hq
  · intro t q hq
    rwa [update_field (g := (G (s.thr c)).setHeld held) Priv.blames rfl] at hq
  · exact fun _ hp => hp
  · exact fun _ _ hst hch _ _ => ⟨hst, hch⟩
  · intro p c' hc' hw
    have hne : .proc p ≠ l := by
      rintro rfl
      rw [hl] at hc'
      cases hc'
    refine ⟨(update_of_ne hne ..).trans hc', ?_, fun hk => hk⟩
    rw [update_field (g := (G (s.thr c)).setHeld held) Priv.wakes rfl]
    exact hw

theorem Kills.release [NeZero n] (hlocks : Locks s G) (hl : l ∈ (G (s.thr c)).held)
    (hgives : Gives (s.cur c) ⟨G (s.thr c), s.k, a⟩ l) (m : Nat) :
    Kills strict fair ((s.setLock l none).setNoff c m)
      (update G (s.thr c) ((G (s.thr c)).unlock (s.cur c) l)) := by
  have hlc : s.lock l = some c := (hlocks.held c l).mp hl
  have hfields : ((G (s.thr c)).unlock (s.cur c) l).blames = (G (s.thr c)).blames ∧
      ((G (s.thr c)).unlock (s.cur c) l).wakes = (G (s.thr c)).wakes := by
    rw [Priv.unlock]
    split <;> exact ⟨rfl, rfl⟩
  apply h.mono
  · exact fun _ hq => hq
  · exact fun _ _ hq => hq
  · exact fun _ hq => hq
  · intro t q hq
    rwa [update_field Priv.blames hfields.1] at hq
  · exact fun _ hp => hp
  · exact fun _ _ hst hch _ _ => ⟨hst, hch⟩
  · intro p c' hc' hw
    have hne : .proc p ≠ l := by
      rintro rfl
      have hcc : c' = c := some.inj (hc'.symm.trans hlc)
      subst hcc
      exact hgives.2.2.2.1 hw
    refine ⟨(update_of_ne hne ..).trans hc', ?_, fun hk => hk⟩
    rw [update_field Priv.wakes hfields.2]
    exact hw

/-- **`killed`, when a process changes its state.**  A process that goes to sleep is not killed. -/
theorem Kills.moves [NeZero n] {st : PState} (hmarks : Marks s G) (hq : s.lock (.proc q) = some c)
    (hmv : Moves (s.cur c) ⟨G (s.thr c), s.k, a⟩ q st g a') :
    Kills strict fair (s.move q st) (update G (s.thr c) g) := by
  obtain ⟨-, -, hchan, hkilled, -, -, hlog⟩ := @move_rest n C s q st
  have hkilling : (s.move q st).k.killing = s.k.killing := move_killing
  have hne : ∀ q', q' ≠ q → (s.move q st).k.state q' = s.k.state q' := fun q' hq' => by
    rw [move_state, update_of_ne hq']
  have hself : (s.move q st).k.state q = st := by rw [move_state, update_self]
  have hblames : g.blames = (G (s.thr c)).blames := by cases hmv <;> rfl
  -- nobody is to be killed in a slot that becomes free
  have hunused : st = .unused → s.k.killed q = false ∧ ∀ t, (G t).blames ≠ some q := by
    rintro rfl
    have hnone : ∀ {x}, s.k.state q = x → x.alive = false → (G (s.thr c)).blames = none → ∀ t, (G t).blames ≠ some q := by
      intro x hx hdead hb t ht
      rcases (hmarks.ok t).blames q ht with ⟨-, c', hc', hl⟩ | ⟨-, hal⟩
      · have hcc : c' = c := some.inj (hl.symm.trans hq)
        rw [← hc', hcc, hb] at ht
        cases ht
      · rw [hx, hdead] at hal
        cases hal
    cases hmv with
    | abort hst _ _ hkill hb | reap hst _ _ _ hkill hb => exact ⟨hkill, hnone hst rfl hb⟩
  constructor
  · intro hs q' hq'
    rw [hkilled] at hq'
    rw [hlog]
    obtain ⟨h₁, h₂⟩ := h.blamed hs q' hq'
    refine ⟨?_, h₂⟩
    rcases eq_or_ne q' q with rfl | hqq
    · rw [hself]
      intro hst
      rw [(hunused hst).1] at hq'
      cases hq'
    · rwa [hne q' hqq]
  · intro hs t q' hq'
    rw [update_field Priv.blames hblames] at hq'
    rw [hlog]
    obtain ⟨h₁, h₂⟩ := h.blames hs t q' hq'
    refine ⟨?_, h₂⟩
    rcases eq_or_ne q' q with rfl | hqq
    · rw [hself]
      exact fun hst => (hunused hst).2 t hq'
    · rwa [hne q' hqq]
  · intro hf p hp
    rw [hkilled]
    apply h.window hf
    rw [move_window] at hp
    split at hp
    · by_cases hpq : p = q
      · rw [hpq, update_self] at hp
        cases hp
      · rwa [update_of_ne hpq] at hp
    · exact hp
  · intro hf p ch hst hch hkl hk
    rw [hchan] at hch
    rw [hkilled] at hk
    rcases eq_or_ne p q with rfl | hpq
    · rw [hself] at hst
      subst hst
      cases hmv with
      | sleep ch' hc hph hch' hok =>
        obtain rfl : ch' = ch := some.inj (hch'.symm.trans hch)
        have ht : (G (.proc p)).tested = true := by
          rw [thr_of_cur hc] at hok
          exact hok.tested hkl
        rw [((hmarks.ok (.proc p)).tested p rfl).1] at ht
        rw [h.window hf p ht] at hk
        cases hk
    · rw [hne p hpq] at hst
      obtain ⟨c', hc', hw, hki⟩ := h.wakes hf p ch hst hch hkl hk
      refine ⟨c', hc', ?_, by rwa [hkilling]⟩
      show (update G (s.thr c) g (s.thr c')).wakes = some p
      by_cases hcc : s.thr c' = s.thr c
      · rw [hcc] at hw ⊢
        rw [update_self]
        cases hmv with
        | wake hst' hw' =>
          rcases hw' with hw' | hw'
          · exact absurd (hw'.symm.trans hw) nofun
          · exact absurd (some.inj (hw.symm.trans hw')) hpq
        | _ => exact hw
      · rw [update_of_ne hcc]
        exact hw

/-- **`killed`, when something is noted.** -/
theorem Kills.notes (hlife : Life s) (hstack : Stacks s G) (hn : Notes strict (s.cur c) ⟨G (s.thr c), s.k, a⟩ ev g) :
    Kills strict fair (s.setK (s.k.note ev)) (update G (s.thr c) g) := by
  have hkeep : ∀ q, s.k.state q ≠ .unused → Blamed q s.k.log → Blamed q (ev :: s.k.log) := by
    intro q hq hb
    refine hb.cons fun pid hev => ?_
    subst hev
    cases hn with
    | created _ _ _ hst => exact hq hst
  have hwakes : g.wakes = (G (s.thr c)).wakes := by cases hn <;> rfl
  constructor
  · intro hs q hq
    obtain ⟨h₁, h₂⟩ := h.blamed hs q hq
    exact ⟨h₁, hkeep q h₁ h₂⟩
  · intro hs t q hq
    have hold : (G t).blames = some q → s.k.state q ≠ .unused ∧ Blamed q (ev :: s.k.log) := by
      intro hq
      obtain ⟨h₁, h₂⟩ := h.blames hs t q hq
      exact ⟨h₁, hkeep q h₁ h₂⟩
    by_cases ht : t = s.thr c
    · subst ht
      rw [update_self] at hq
      cases hn with
      | killed q' pid hq' hrun hst =>
        obtain rfl := some.inj hq
        obtain ⟨hne, hset, hpid⟩ := hst hs
        exact ⟨hne, pid, hpid ▸ hset.born hne, .inl ⟨rfl, rfl⟩⟩
      | trapped q' hc hrun =>
        obtain rfl := some.inj hq
        rw [thr_of_cur hc] at hrun
        have hst : s.k.state q' ≠ .unused := by
          rw [hstack.running_of_run hc hrun]
          exact nofun
        obtain ⟨pid, hb⟩ := ne_none_iff_exists'.mp (hlife.born q' hst)
        exact ⟨hst, pid, hb, .inl rfl⟩
      | _ => exact hold hq
    · rw [update_of_ne ht] at hq
      exact hold hq
  · exact h.window
  · intro hf p ch hst hch hkl hk
    obtain ⟨c', hc', hw, hki⟩ := h.wakes hf p ch hst hch hkl hk
    refine ⟨c', hc', ?_, hki⟩
    rw [update_field Priv.wakes hwakes]
    exact hw

/-- **`killed` is set**, for a reason, and not between a test and a sleep. -/
theorem Kills.setKilled (hblames : (G (s.thr c)).blames = some q) (hg : g.blames = none) (hfair : fair → s.k.window q = false)
    (hw : (s.lock (.proc q) = some c ∧ (G (s.thr c)).wakes = none ∧ (s.k.state q = .sleeping → g.wakes = some q)) ∨
      (s.k.state q ≠ .sleeping ∧ g.wakes = (G (s.thr c)).wakes))
    {x : Bool} (hx : s.lock (.proc q) = some c → x = true) :
    Kills strict fair (s.setK ((s.k.setKilled q true).setKilling q x)) (update G (s.thr c) g) := by
  have hne : ∀ p, p ≠ q → (s.k.setKilled q true).killed p = s.k.killed p := fun p hp => update_of_ne hp ..
  constructor
  · intro hs q' hq'
    by_cases hqq : q' = q
    · exact hqq ▸ h.blames hs _ q hblames
    · exact h.blamed hs q' ((hne q' hqq).symm.trans hq')
  · intro hs t q' hq'
    refine h.blames hs t q' ?_
    by_cases ht : t = s.thr c
    · rw [ht, update_self, hg] at hq'
      cases hq'
    · rwa [update_of_ne ht] at hq'
  · intro hf p hp
    have hpq : p ≠ q := by
      rintro rfl
      exact absurd ((hfair hf).symm.trans hp) Bool.false_ne_true
    exact (hne p hpq).trans (h.window hf p hp)
  · intro hf p ch hst hch hkl hk
    rcases eq_or_ne p q with rfl | hpq
    · rcases hw with ⟨hl, -, hw⟩ | ⟨hns, -⟩
      · refine ⟨c, hl, ?_, (update_self ..).trans (hx hl)⟩
        show (update G (s.thr c) g (s.thr c)).wakes = some p
        rw [update_self]
        exact hw hst
      · exact absurd hst hns
    · obtain ⟨c', hc', hw', hki⟩ := h.wakes hf p ch hst hch hkl ((hne p hpq).symm.trans hk)
      refine ⟨c', hc', ?_, (update_of_ne hpq ..).trans hki⟩
      show (update G (s.thr c) g (s.thr c')).wakes = some p
      by_cases hcc : s.thr c' = s.thr c
      · rw [hcc] at hw' ⊢
        rw [update_self]
        rcases hw with ⟨-, hnone, -⟩ | ⟨-, hsame⟩
        · exact absurd (hnone.symm.trans hw') nofun
        · exact hsame.trans hw'
      · rw [update_of_ne hcc]
        exact hw'

end

end KillSteps

end Xv6.Sched
