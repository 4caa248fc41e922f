/-
Xv6/ProcView.lean

Views that agree.

A thread reads and writes only what its locks protect, and what it alone
records.  So the rules do not tell two views apart that agree there
(`spec_agree`), and code that keeps to the rules in the one view does so in the
other (`Good.agree`).  This is how what the other CPUs do in between is dealt
with, once and for all.
-/
import Xv6.ProcSpec

namespace Xv6.Sched

open Function

variable {n : Nat}

/-! ### Agreement -/

section Agreement

variable {who : Option (Fin n)} {held : List (Lock n)} {k k' k'' : Store n} {a a' a'' : Aux n} {l : Lock n}
  {q : Fin n}

theorem SameStore.refl (k : Store n) (l : Lock n) : SameStore k k l := by
  cases l <;> simp [SameStore]

theorem SameStore.trans (h : SameStore k k' l) (h' : SameStore k' k'' l) : SameStore k k'' l := by
  cases l with
  | proc q =>
    obtain ⟨h₁, h₂, h₃, h₄, h₅, h₆⟩ := h
    obtain ⟨h₁', h₂', h₃', h₄', h₅', h₆'⟩ := h'
    exact ⟨h₁.trans h₁', h₂.trans h₂', h₃.trans h₃', h₄.trans h₄', h₅.trans h₅',
      fun hr => (h₆ hr).trans (h₆' (h₁ ▸ hr))⟩
  | wait | cond => exact Eq.trans h h'
  | _ => trivial

theorem Mine.refl (who : Option (Fin n)) (k : Store n) : Mine who k k :=
  ⟨fun _ _ => rfl, fun _ _ => rfl, fun _ _ => rfl⟩

theorem Mine.of_log (h : k'.log = k.log) : Mine who k k' :=
  ⟨fun p _ => by rw [h], fun p _ => by rw [h], fun p _ => by rw [h]⟩

theorem Mine.trans (h : Mine who k k') (h' : Mine who k' k'') : Mine who k k'' :=
  ⟨fun p hp => (h.calling p hp).trans (h'.calling p hp), fun p hp => (h.result p hp).trans (h'.result p hp),
    fun p hp => (h.stored p hp).trans (h'.stored p hp)⟩

theorem SameAux.refl (a : Aux n) (l : Lock n) : SameAux a a l := ⟨fun _ _ => rfl, fun _ => rfl, fun _ => rfl, fun _ => rfl⟩

theorem SameAux.trans (h : SameAux a a' l) (h' : SameAux a' a'' l) : SameAux a a'' l :=
  ⟨fun ch hl => (h.passed ch hl).trans (h'.passed ch hl), fun hl => (h.nz hl).trans (h'.nz hl),
    fun hl => (h.dirty hl).trans (h'.dirty hl), fun hl => (h.freeing hl).trans (h'.freeing hl)⟩

namespace Agree

theorem refl (who : Option (Fin n)) (held : List (Lock n)) (k : Store n) (a : Aux n) : Agree who held k k a a :=
  ⟨fun l _ => .refl k l, fun l _ => .refl a l, .refl who k⟩

theorem trans (h : Agree who held k k' a a') (h' : Agree who held k' k'' a' a'') : Agree who held k k'' a a'' :=
  ⟨fun l hl => (h.store l hl).trans (h'.store l hl), fun l hl => (h.aux l hl).trans (h'.aux l hl),
    h.mine.trans h'.mine⟩

variable (h : Agree who held k k' a a')
include h

section

variable (hq : .proc q ∈ held)

include hq

theorem state : k.state q = k'.state q := (h.store _ hq).1

theorem pid : k.pid q = k'.pid q := (h.store _ hq).2.1

theorem chan : k.chan q = k'.chan q := (h.store _ hq).2.2.1

theorem xstate : k.xstate q = k'.xstate q := (h.store _ hq).2.2.2.1

theorem life : life q k.log = Sched.life q k'.log := (h.store _ hq).2.2.2.2.1

theorem killed (hst : k.state q ≠ .running) : k.killed q = k'.killed q :=
  (h.store _ hq).2.2.2.2.2 hst

end

theorem parent (hwait : .wait ∈ held) : k.parent = k'.parent := h.store _ hwait

theorem settled (hq : .proc q ∈ held) (hset : Settled k q) : Settled k' q := by
  rw [Settled, h.state hq, h.pid hq, h.xstate hq, h.life hq] at hset
  exact hset

theorem passed {ch : Chan n} (hl : lockOf ch ∈ held) : a.passed ch = a'.passed ch := (h.aux _ hl).passed ch rfl

section

variable (hwait : .wait ∈ held)

include hwait

theorem nz : a.nz = a'.nz := (h.aux _ hwait).nz rfl

theorem dirty : a.dirty = a'.dirty := (h.aux _ hwait).dirty rfl

theorem freeing : a.freeing = a'.freeing := (h.aux _ hwait).freeing rfl

end

end Agree

end Agreement

/-! ### The same change to both -/

section Updates

variable {who : Option (Fin n)} {held : List (Lock n)} {k k' : Store n} {a a' : Aux n} {l : Lock n} {q : Fin n}

/-- The same value in the same place. -/
theorem update_congr {α : Type} {f f' : Fin n → α} {q' : Fin n} (h : f q' = f' q') (v : α) :
    update f q v q' = update f' q v q' := by
  by_cases hq : q' = q
  · simp [hq]
  · simpa [hq] using h

section

variable (h : SameStore k k' l)

include h

theorem SameStore.setPid (v : Int32) : SameStore (k.setPid q v) (k'.setPid q v) l := by
  cases l with
  | proc q' => exact ⟨h.1, update_congr h.2.1 v, h.2.2⟩
  | _ => exact h

theorem SameStore.setChan (o : Option (Chan n)) : SameStore (k.setChan q o) (k'.setChan q o) l := by
  cases l with
  | proc q' => exact ⟨h.1, h.2.1, update_congr h.2.2.1 o, h.2.2.2⟩
  | _ => exact h

theorem SameStore.setXstate (v : Int32) : SameStore (k.setXstate q v) (k'.setXstate q v) l := by
  cases l with
  | proc q' => exact ⟨h.1, h.2.1, h.2.2.1, update_congr h.2.2.2.1 v, h.2.2.2.2⟩
  | _ => exact h

theorem SameStore.setParent (o : Option (Fin n)) : SameStore (k.setParent q o) (k'.setParent q o) l := by
  cases l with
  | wait => exact congrArg (fun f => update f q o) h
  | _ => exact h

theorem SameStore.setCond (i : Nat) (b : Bool) : SameStore (k.setCond i b) (k'.setCond i b) l := by
  cases l with
  | cond j =>
    have hj : k.cond j = k'.cond j := h
    show update k.cond i b j = update k'.cond i b j
    by_cases hij : j = i
    · simp [hij]
    · simpa [hij] using hj
  | _ => exact h

theorem SameStore.setKilled (b : Bool) : SameStore (k.setKilled q b) (k'.setKilled q b) l := by
  cases l with
  | proc q' => exact ⟨h.1, h.2.1, h.2.2.1, h.2.2.2.1, h.2.2.2.2.1, fun hst => update_congr (h.2.2.2.2.2 hst) b⟩
  | _ => exact h

/-- `killed` has to agree where a process is not RUNNING any more. -/
theorem SameStore.setState (st : PState) (hkill : k.killed q = k'.killed q) :
    SameStore (k.setState q st) (k'.setState q st) l := by
  cases l with
  | proc q' =>
    obtain ⟨h₁, h₂, h₃, h₄, h₅, h₆⟩ := h
    refine ⟨update_congr h₁ st, h₂, h₃, h₄, h₅, fun hst => ?_⟩
    by_cases hq : q' = q
    · exact hq ▸ hkill
    · exact h₆ (by simpa [hq] using hst)
  | _ => exact h

end

/-- What a lock protects does not change if nothing does that belongs to it. -/
theorem SameStore.of (hproc : ∀ q, l = .proc q → k'.state q = k.state q ∧ k'.pid q = k.pid q ∧ k'.chan q = k.chan q ∧
      k'.xstate q = k.xstate q ∧ life q k'.log = life q k.log ∧ (k.state q ≠ .running → k'.killed q = k.killed q))
    (hparent : l = .wait → k'.parent = k.parent) (hcond : ∀ i, l = .cond i → k'.cond i = k.cond i) :
    SameStore k k' l := by
  cases l with
  | proc q =>
    obtain ⟨h₁, h₂, h₃, h₄, h₅, h₆⟩ := hproc q rfl
    exact ⟨h₁.symm, h₂.symm, h₃.symm, h₄.symm, h₅.symm, fun hst => (h₆ hst).symm⟩
  | wait => exact (hparent rfl).symm
  | cond i => exact (hcond i rfl).symm
  | _ => trivial

/-- Nothing changes that a lock protects. -/
theorem SameStore.of_eq (h : k'.state = k.state ∧ k'.pid = k.pid ∧ k'.parent = k.parent ∧ k'.chan = k.chan ∧
      k'.killed = k.killed ∧ k'.xstate = k.xstate ∧ k'.cond = k.cond) (hlife : ∀ q, life q k'.log = life q k.log)
    (l : Lock n) : SameStore k k' l := by
  obtain ⟨h₁, h₂, h₃, h₄, h₅, h₆, h₇⟩ := h
  refine .of (fun q _ => ⟨?_, ?_, ?_, ?_, hlife q, fun _ => ?_⟩) (fun _ => h₃) fun i _ => congrFun h₇ i
  · rw [h₁]
  · rw [h₂]
  · rw [h₄]
  · rw [h₆]
  · rw [h₅]

/-- Only process `q` changes. -/
theorem SameStore.except (hl : l ≠ .proc q) (hproc : ∀ q', q' ≠ q → k'.state q' = k.state q' ∧
      k'.pid q' = k.pid q' ∧ k'.chan q' = k.chan q' ∧ k'.xstate q' = k.xstate q' ∧
      life q' k'.log = life q' k.log ∧ k'.killed q' = k.killed q')
    (hparent : k'.parent = k.parent) (hcond : k'.cond = k.cond) : SameStore k k' l := by
  refine .of (fun q' hq' => ?_) (fun _ => hparent) fun i _ => congrFun hcond i
  obtain ⟨h₁, h₂, h₃, h₄, h₅, h₆⟩ := hproc q' fun hqq => hl (hqq ▸ hq')
  exact ⟨h₁, h₂, h₃, h₄, h₅, fun _ => h₆⟩

theorem life_cons_congr {l l' : List (Event n)} (ev : Event n) (h : life q l = life q l') :
    life q (ev :: l) = life q (ev :: l') := by
  cases ev <;> simp [life, h]

theorem SameStore.note (h : SameStore k k' l) (ev : Event n) : SameStore (k.note ev) (k'.note ev) l := by
  cases l with
  | proc q' =>
    obtain ⟨h₁, h₂, h₃, h₄, h₅, h₆⟩ := h
    exact ⟨h₁, h₂, h₃, h₄, life_cons_congr ev h₅, h₆⟩
  | _ => exact h

theorem Mine.note (h : Mine who k k') (ev : Event n) : Mine who (k.note ev) (k'.note ev) where
  calling p hp := by
    cases ev <;> simp [Sched.calling, h.calling p hp]
  result p hp := by
    cases ev <;> simp [Sched.result, h.result p hp]
  stored p hp := by
    cases ev <;> simp [Sched.lastStored, h.stored p hp]

section

variable (h : SameAux a a' l)

include h

theorem SameAux.setNz : SameAux (a.setNz q) (a'.setNz q) l :=
  ⟨h.passed, fun hl => congrArg (fun f : Fin n → Bool => update f q true) (h.nz hl), h.dirty, h.freeing⟩

theorem SameAux.clearNz : SameAux (a.clearNz q) (a'.clearNz q) l :=
  ⟨h.passed, fun hl => congrArg (fun f : Fin n → Bool => update f q false) (h.nz hl), h.dirty, h.freeing⟩

theorem SameAux.setDirty (b : Bool) : SameAux (a.setDirty b) (a'.setDirty b) l :=
  ⟨h.passed, h.nz, fun _ => rfl, h.freeing⟩

theorem SameAux.setFreeing (o : Option (Fin n)) : SameAux (a.setFreeing o) (a'.setFreeing o) l :=
  ⟨h.passed, h.nz, h.dirty, fun _ => rfl⟩

end

/-- What is noted when the lock of a process is released. -/
theorem SameAux.unlock {l₀ : Lock n} (hag : Agree who held k k' a a') (hl₀ : l₀ ∈ held) (h : SameAux a a' l) :
    SameAux (a.unlock held k l₀) (a'.unlock held k' l₀) l := by
  cases l₀ with
  | proc q =>
    refine ⟨fun ch hl => ?_, h.nz, h.dirty, h.freeing⟩
    funext q'
    show (if _ then true else a.passed ch q') = (if _ then true else a'.passed ch q')
    rw [hag.state hl₀, hag.chan hl₀, h.passed ch hl]
  | _ => exact h

end Updates

/-! ### The rules in two views -/

section Rules

variable {strict : Prop} {who : Option (Fin n)} {g g₁ : Priv n} {k k' : Store n} {a a' a₁ : Aux n} {q : Fin n}
  [NeZero n]

section

variable (hag : Agree who g.held k k' a a')

include hag

theorem Moves.agree {st : PState} (hq : .proc q ∈ g.held) (h : Moves who ⟨g, k, a⟩ q st g₁ a₁) :
    g₁.held = g.held ∧ ∃ a₁', Moves who ⟨g, k', a'⟩ q st g₁ a₁' ∧ ∀ l ∈ g.held, SameAux a₁ a₁' l := by
  have hst := hag.state hq
  have hlife := hag.life hq
  cases h with
  | alloc h₁ h₂ h₃ h₄ h₅ => exact ⟨rfl, a', .alloc (hst ▸ h₁) (hlife ▸ h₂) h₃ h₄ h₅, hag.aux⟩
  | abort h₁ h₂ h₃ h₄ h₅ =>
    have hkill : k'.killed q = false := by
      rw [← hag.killed hq (by rw [h₁]; exact nofun)]
      exact h₄
    exact ⟨rfl, a', .abort (hst ▸ h₁) h₂ h₃ hkill h₅, hag.aux⟩
  | reap h₁ h₂ h₃ h₄ h₅ h₆ =>
    have hkill : k'.killed q = false := by
      rw [← hag.killed hq (by rw [h₁]; exact nofun)]
      exact h₅
    exact ⟨rfl, _, .reap (hst ▸ h₁) h₂ (hag.freeing h₂ ▸ h₃) (hag.parent h₂ ▸ h₄) hkill h₆,
      fun l hl => (hag.aux l hl).setFreeing none⟩
  | wake h₁ h₂ => exact ⟨rfl, a', .wake (hst ▸ h₁) h₂, hag.aux⟩
  | birth h₁ h₂ h₃ => exact ⟨rfl, a', .birth h₁ h₂ h₃, hag.aux⟩
  | yield h₁ h₂ h₃ => exact ⟨rfl, a', .yield h₁ h₂ h₃, hag.aux⟩
  | pick h₁ h₂ h₃ => exact ⟨rfl, a', .pick h₁ h₂ (hst ▸ h₃), hag.aux⟩
  | sleep ch h₁ h₂ h₃ h₄ => exact ⟨rfl, a', .sleep ch h₁ h₂ (hag.chan hq ▸ h₃) h₄, hag.aux⟩
  | exit h₁ h₂ h₃ h₄ h₅ h₆ h₇ h₈ h₉ h₁₀ =>
    refine ⟨rfl, _, .exit h₁ h₂ h₃ h₄ h₅ h₆ h₇ h₈ (hag.parent h₅ ▸ h₉) (fun r hr => ?_),
      fun l hl => (hag.aux l hl).clearNz⟩
    have hw : lockOf (.proc r) ∈ g.held := h₅
    rw [← hag.passed hw]
    exact h₁₀ r (hag.parent h₅ ▸ hr)

theorem Adopts.agree {o : Option (Fin n)} (h : Adopts who ⟨g, k, a⟩ q o g₁ a₁) :
    g₁.held = g.held ∧ ∃ a₁', Adopts who ⟨g, k', a'⟩ q o g₁ a₁' ∧ ∀ l ∈ g.held, SameAux a₁ a₁' l := by
  cases h with
  | link p h₁ h₂ h₃ h₄ => exact ⟨rfl, a', .link p h₁ h₂ h₃ h₄, hag.aux⟩
  | init h₁ h₂ => exact ⟨rfl, _, .init h₁ (hag.parent h₁ ▸ h₂), fun l hl => (hag.aux l hl).setDirty true⟩
  | abort h₁ h₂ => exact ⟨rfl, a', .abort h₁ h₂, hag.aux⟩
  | reap h₁ h₂ h₃ h₄ =>
    exact ⟨rfl, _, .reap h₁ h₂ (hag.state h₁ ▸ h₃) (hag.freeing h₂ ▸ h₄),
      fun l hl => (hag.aux l hl).setFreeing (some q)⟩

omit [NeZero n] in
theorem Notes.agree {ev : Event n} (h : Notes strict who ⟨g, k, a⟩ ev g₁) :
    g₁.held = g.held ∧ Notes strict who ⟨g, k', a'⟩ ev g₁ := by
  cases h with
  | created q pid h₁ h₂ h₃ h₄ =>
    refine ⟨rfl, .created q pid h₁ (hag.state h₁ ▸ h₂) (hag.life h₁ ▸ h₃) fun hs => ?_⟩
    rw [← hag.killed h₁ (by rw [h₂]; exact nofun)]
    exact h₄ hs
  | aborted q h₁ h₂ h₃ => exact ⟨rfl, .aborted q h₁ h₂ (hag.life h₁ ▸ h₃)⟩
  | exited q status h₁ h₂ h₃ => exact ⟨rfl, .exited q status h₁ h₂ (hag.life h₂ ▸ h₃)⟩
  | waited p addr q pid status h₁ h₂ h₃ h₄ h₅ h₆ h₇ h₈ h₉ =>
    exact ⟨rfl, .waited p addr q pid status h₁ h₂ h₃ (hag.parent h₃ ▸ h₄) (hag.state h₂ ▸ h₅) (hag.pid h₂ ▸ h₆)
      (hag.xstate h₂ ▸ h₇) (hag.life h₂ ▸ h₈) (hag.mine.stored p h₁ ▸ h₉)⟩
  | killed q pid h₁ h₂ h₃ =>
    exact ⟨rfl, .killed q pid h₁ h₂ fun hs =>
      ⟨hag.state h₁ ▸ (h₃ hs).1, hag.settled h₁ (h₃ hs).2.1, hag.pid h₁ ▸ (h₃ hs).2.2⟩⟩
  | trapped q h₁ h₂ => exact ⟨rfl, .trapped q h₁ h₂⟩

theorem Gives.agree {l : Lock n} (hl : l ∈ g.held) (h : Gives who ⟨g, k, a⟩ l) : Gives who ⟨g, k', a'⟩ l := by
  cases l with
  | proc q => exact ⟨hag.settled hl h.1, h.2⟩
  | wait =>
    obtain ⟨h₁, h₂, h₃⟩ := h
    have hp : lockOf (.proc (initproc (n := n))) ∈ g.held := hl
    exact ⟨hag.dirty hl ▸ hag.passed hp ▸ h₁, hag.freeing hl ▸ h₂, fun hc => hag.parent hl ▸ hag.nz hl ▸ h₃ hc⟩
  | cond i =>
    have hp : lockOf (.cond i : Chan n) ∈ g.held := hl
    have hc : k.cond i = k'.cond i := hag.store _ hl
    exact ⟨hc ▸ hag.passed hp ▸ h.1, fun hcom => hc ▸ h.2 hcom⟩
  | _ => exact h

end

omit [NeZero n] in
theorem Priv.unlock_held (l : Lock n) : (g.unlock who l).held = g.held.erase l := by
  rw [Priv.unlock]
  split <;> rfl

section

variable (hag : Agree who g.held k k' a a')

include hag

/-- **The rules do not tell two views apart that agree on what the thread knows.** -/
theorem spec_agree {o : Op n} {Q Q' : o.Resp → Know n → Prop} (h : spec strict who o ⟨g, k, a⟩ Q)
    (hQ : ∀ r g₁ k₁ k₁' a₁ a₁', Q r ⟨g₁, k₁, a₁⟩ → Agree who g₁.held k₁ k₁' a₁ a₁' → Q' r ⟨g₁, k₁', a₁'⟩) :
    spec strict who o ⟨g, k', a'⟩ Q' := by
  cases o with
  | acquire l =>
    exact ⟨h.1, fun k₁ a₁ hag₁ hgain => hQ _ _ _ _ _ _ (h.2 k₁ a₁ (hag.trans hag₁) hgain) (.refl _ _ _ _)⟩
  | release l =>
    refine ⟨h.1, h.2.1.agree hag h.1, hQ _ _ _ _ _ _ h.2.2 ?_⟩
    have hsub : (g.unlock who l).held ⊆ g.held := by
      rw [Priv.unlock_held]
      exact List.erase_subset
    exact ⟨fun l' hl' => hag.store l' (hsub hl'), fun l' hl' => (hag.aux l' (hsub hl')).unlock hag h.1, hag.mine⟩
  | setProc o =>
    rcases o with - | p
    · exact ⟨h.1, h.2.1, hQ _ _ _ _ _ _ h.2.2 hag⟩
    · exact ⟨h.1, h.2.1, hQ _ _ _ _ _ _ h.2.2 hag⟩
  | swtchTo p =>
    obtain ⟨h₁, h₂, h₃, h₄, h₅, h₆, h⟩ := h
    exact ⟨h₁, h₂, h₃, h₄, h₅, hag.settled (by simp [show g.held = _ from h₃]) h₆,
      fun k₁ a₁ hk hs => hQ _ _ _ _ _ _ (h k₁ a₁ hk hs) (.refl _ _ _ _)⟩
  | swtch =>
    obtain ⟨p, h₁, h₂, h₃, h₄, h₅, h⟩ := h
    exact ⟨p, h₁, h₂, h₃, h₄, hag.settled (by simp [show g.held = _ from h₃]) h₅,
      fun k₁ a₁ hm hk hs => hQ _ _ _ _ _ _ (h k₁ a₁ (hag.mine.trans hm) hk hs) (.refl _ _ _ _)⟩
  | state q =>
    refine ⟨fun hq => ?_, fun hq st => hQ _ _ _ _ _ _ (h.2 hq st) hag⟩
    have hst : k.state q = k'.state q := hag.state hq
    refine hst ▸ hQ _ _ _ _ _ _ (h.1 hq) ?_
    split
    · exact ⟨hag.store, fun l hl => (hag.aux l hl).setNz, hag.mine⟩
    · exact hag
  | setState q st =>
    obtain ⟨hq, g₁, a₁, hmv, h, h'⟩ := h
    obtain ⟨hheld, a₁', hmv', haux⟩ := hmv.agree hag hq
    have hst : k.state q = k'.state q := hag.state hq
    refine ⟨hq, g₁, a₁', hmv', fun hne => hQ _ _ _ _ _ _ (h (hst ▸ hne)) ?_,
      fun hrun b => hQ _ _ _ _ _ _ (h' (hst ▸ hrun) b) ?_⟩
    · exact ⟨fun l hl => (hag.store l (hheld ▸ hl)).setState st (hag.killed hq (hst ▸ hne)),
        fun l hl => haux l (hheld ▸ hl), ⟨hag.mine.calling, hag.mine.result, hag.mine.stored⟩⟩
    · exact ⟨fun l hl => ((hag.store l (hheld ▸ hl)).setKilled b).setState st (by simp),
        fun l hl => haux l (hheld ▸ hl), ⟨hag.mine.calling, hag.mine.result, hag.mine.stored⟩⟩
  | setPid q v =>
    exact ⟨h.1, hag.state h.1 ▸ h.2.1, hQ _ _ _ _ _ _ h.2.2 ⟨fun l hl => (hag.store l hl).setPid v, hag.aux,
      ⟨hag.mine.calling, hag.mine.result, hag.mine.stored⟩⟩⟩
  | setParent q o =>
    obtain ⟨g₁, a₁, had, h⟩ := h
    obtain ⟨hheld, a₁', had', haux⟩ := had.agree hag
    exact ⟨g₁, a₁', had', hQ _ _ _ _ _ _ h ⟨fun l hl => (hag.store l (hheld ▸ hl)).setParent o,
      fun l hl => haux l (hheld ▸ hl), ⟨hag.mine.calling, hag.mine.result, hag.mine.stored⟩⟩⟩
  | setChan q o =>
    exact ⟨h.1, hag.state h.1 ▸ h.2.1, hQ _ _ _ _ _ _ h.2.2 ⟨fun l hl => (hag.store l hl).setChan o, hag.aux,
      ⟨hag.mine.calling, hag.mine.result, hag.mine.stored⟩⟩⟩
  | setKilled q b =>
    have hag' : Agree who g.held (k.setKilled q b) (k'.setKilled q b) a a' :=
      ⟨fun l hl => (hag.store l hl).setKilled b, hag.aux, ⟨hag.mine.calling, hag.mine.result, hag.mine.stored⟩⟩
    cases b with
    | false => exact ⟨h.1, hag.state h.1 ▸ h.2.1, hQ _ _ _ _ _ _ h.2.2 hag'⟩
    | true =>
      refine ⟨h.1, h.2.imp ?_ ?_⟩
      · rintro ⟨hq, hw, h⟩
        refine ⟨hq, hw, ?_⟩
        have hst : k.state q = k'.state q := hag.state hq
        rw [← hst]
        refine hQ _ _ _ _ _ _ h ?_
        split
        · exact hag'
        · exact hag'
      · exact fun h => ⟨h.1, h.2.1, h.2.2.1, hQ _ _ _ _ _ _ h.2.2.2 hag'⟩
  | setXstate q v =>
    exact ⟨h.1, hQ _ _ _ _ _ _ h.2 ⟨fun l hl => (hag.store l hl).setXstate v, hag.aux,
      ⟨hag.mine.calling, hag.mine.result, hag.mine.stored⟩⟩⟩
  | setCond i b =>
    exact ⟨h.1, hQ _ _ _ _ _ _ h.2 ⟨fun l hl => (hag.store l hl).setCond i b, hag.aux,
      ⟨hag.mine.calling, hag.mine.result, hag.mine.stored⟩⟩⟩
  | setContext q => exact ⟨h.1, h.2.1, hQ _ _ _ _ _ _ h.2.2 hag⟩
  | freemem q => exact ⟨h.1, h.2.1, hag.state h.1 ▸ h.2.2.1, hQ _ _ _ _ _ _ h.2.2.2 hag⟩
  | copyout addr status =>
    exact ⟨hQ _ _ _ _ _ _ h.1 hag, fun p hp => hQ _ _ _ _ _ _ (h.2 p hp)
      ⟨fun l hl => (hag.store l hl).note _, hag.aux, hag.mine.note _⟩⟩
  | testKilled p => exact ⟨h.1, h.2.1, hQ _ _ _ _ _ _ h.2.2.1 hag, hQ _ _ _ _ _ _ h.2.2.2 hag⟩
  | note ev =>
    obtain ⟨g₁, hn, h⟩ := h
    obtain ⟨hheld, hn'⟩ := hn.agree hag
    exact ⟨g₁, hn', hQ _ _ _ _ _ _ h ⟨fun l hl => (hag.store l (hheld ▸ hl)).note ev,
      fun l hl => hag.aux l (hheld ▸ hl), hag.mine.note ev⟩⟩
  | pid q => exact ⟨fun hq => hag.pid hq ▸ hQ _ _ _ _ _ _ (h.1 hq) hag, fun hq v => hQ _ _ _ _ _ _ (h.2 hq v) hag⟩
  | parent q =>
    exact ⟨fun hw => hag.parent hw ▸ hQ _ _ _ _ _ _ (h.1 hw) hag, fun hw v => hQ _ _ _ _ _ _ (h.2 hw v) hag⟩
  | chan q => exact ⟨fun hq => hag.chan hq ▸ hQ _ _ _ _ _ _ (h.1 hq) hag, fun hq v => hQ _ _ _ _ _ _ (h.2 hq v) hag⟩
  | xstate q =>
    exact ⟨fun hq => hag.xstate hq ▸ hQ _ _ _ _ _ _ (h.1 hq) hag, fun hq v => hQ _ _ _ _ _ _ (h.2 hq v) hag⟩
  | cond i =>
    refine ⟨fun hi => ?_, fun hi v => hQ _ _ _ _ _ _ (h.2 hi v) hag⟩
    have hc : k.cond i = k'.cond i := hag.store _ hi
    exact hc ▸ hQ _ _ _ _ _ _ (h.1 hi) hag
  | panic msg => trivial
  | holding _ | noff | myproc | setNextpid _ | setPipe _ _ | setCons _ => exact hQ _ _ _ _ _ _ h hag
  | untest _ | woken _ => exact ⟨h.1, hQ _ _ _ _ _ _ h.2 hag⟩
  | killed _ | nextpid | kalloc | copyoutByte _ | copyinByte | pipe _ | cons =>
    exact fun r => hQ _ _ _ _ _ _ (h r) hag

theorem wp_agree {α : Type} {x : KProg n α} {Q Q' : α → Know n → Prop} (h : x.wp (spec strict who) ⟨g, k, a⟩ Q)
    (hQ : ∀ r g₁ k₁ k₁' a₁ a₁', Q r ⟨g₁, k₁, a₁⟩ → Agree who g₁.held k₁ k₁' a₁ a₁' → Q' r ⟨g₁, k₁', a₁'⟩) :
    x.wp (spec strict who) ⟨g, k', a'⟩ Q' := by
  induction x generalizing g k k' a a' with
  | ret r => exact hQ _ _ _ _ _ _ h hag
  | call o f ih =>
    apply spec_agree hag h
    exact fun r g₁ k₁ k₁' a₁ a₁' h₁ hag₁ => ih r hag₁ h₁

omit [NeZero n] in
theorem Done.agree {next : Next n} (h : Done who ⟨g, k, a⟩ next) : Done who ⟨g, k', a'⟩ next := by
  have hnw : NotWait who k → NotWait who k' := fun h p addr hp => hag.mine.calling p hp ▸ h p addr hp
  cases next with
  | user | scheduler => exact h
  | sysret v =>
    obtain ⟨h₁, h₂, h₃⟩ := h
    refine ⟨h₁, h₂, fun p addr hp hc => ?_⟩
    have hc' : calling p k.log = some (.wait addr) := (hag.mine.calling p hp).trans hc
    exact hag.mine.result p hp ▸ h₃ p addr hp hc'
  | wait p addr =>
    obtain ⟨h₁, h₂, h₃, h₄, h₅⟩ := h
    have hw : Lock.wait ∈ g.held := by simp [show g.held = _ from h₂]
    exact ⟨h₁, h₂, hag.dirty hw ▸ h₃, hag.freeing hw ▸ h₄, hag.mine.result p h₁ ▸ h₅⟩
  | piperead | pipewrite | consoleread => exact ⟨h.1, h.2.1, hnw h.2.2⟩

/-- **Code that keeps to the rules does so in every view that agrees with its own.** -/
theorem Good.agree {x : KProg n (Next n)} (h : Good strict who x ⟨g, k, a⟩) : Good strict who x ⟨g, k', a'⟩ :=
  wp_agree hag h fun _ _ _ _ _ _ h₁ hag₁ => ⟨h₁.1, h₁.2.agree hag₁⟩

end

end Rules

end Xv6.Sched
