/-
Xv6/ProcRun.lean

The invariant holds in every state that the machine reaches.

What a thread still has to do (`rest`) keeps to the rules at every moment: on a
CPU in the current view, and off the CPUs in every view that it may come back to
(`Codes`).  A switch makes one of these the other.
-/
import Xv6.ProcOps
import Xv6.ProcCode
import Xv6.Lib.Machine

namespace Xv6.Sched

open Function Option

variable {n : Nat} {C : Type} [NeZero n]

/-- **What the threads still have to do keeps to the rules.** -/
structure Codes (strict : Prop) (s : Sys n C) (G : Thread n C → Priv n) (a : Aux n) : Prop where
  cpu : ∀ c, Good strict (s.cur c) (rest s (s.thr c)) ⟨G (s.thr c), s.k, a⟩
  sched : ∀ c p, s.cur c = some p → ∀ k a', k.state p ≠ .running → Settled k p →
    Good strict none (rest s (.sched c)) ⟨G (.sched c), k, a'⟩
  proc : ∀ p, (∀ c, s.cur c ≠ some p) → Ready s G p → ∀ k a', Mine (some p) s.k k → k.state p = .running →
    Settled k p → Good strict (some p) (rest s (.proc p)) ⟨(G (.proc p)).setPhase .run, k, a'⟩

/-- The invariant of the machine. -/
def Inv (strict fair : Prop) (s : Sys n C) : Prop := ∃ G a, Pool strict fair s G a ∧ Codes strict s G a

/-- Thread `t` goes on with `x`. -/
structure Goes (s s' : Sys n C) (t : Thread n C) (x : KProg n (Next n)) : Prop where
  cur : s'.cur = s.cur
  lock : s'.lock = s.lock
  noff : s'.noff = s.noff
  cproc : s'.cproc = s.cproc
  k : s'.k = s.k
  self : rest s' t = x
  other : ∀ t', t' ≠ t → rest s' t' = rest s t'

section Goes

variable {strict fair : Prop} {s s' s'' : Sys n C} {G G' : Thread n C → Priv n} {a a' : Aux n} {c : C} {t : Thread n C}
  {x : KProg n (Next n)} {p q : Fin n}

omit [NeZero n] in
theorem Goes.thr (h : Goes s s' t x) (c : C) : s'.thr c = s.thr c := by rw [Sys.thr, Sys.thr, h.cur]

theorem Goes.pool (h : Goes s s' t x) (hp : Pool strict fair s G a) : Pool strict fair s' G a :=
  hp.code h.cur h.lock h.noff h.cproc h.k

omit [NeZero n] in
theorem Goes.ready (h : Goes s s' t x) (hr : Ready s' G p) : Ready s G p := by rwa [Ready, h.k] at hr

/-- Other threads have other locks. -/
theorem Local.agree (hl : Local c s s' G G' a a') (h : Pool strict fair s G a) (h' : Pool strict fair s' G' a') {c' : C}
    (hc : c' ≠ c) : G' (s.thr c') = G (s.thr c') ∧ Agree (s.cur c') (G (s.thr c')).held s.k s'.k a a' := by
  have hthr : ∀ c, s'.thr c = s.thr c := fun c => by rw [Sys.thr, Sys.thr, hl.cur]
  have hG : G' (s.thr c') = G (s.thr c') := hl.notes _ fun heq => hc (h.stack.thr_inj heq)
  have hstore : ∀ l ∈ (G (s.thr c')).held, SameStore s.k s'.k l ∧ SameAux a a' l := by
    intro l hmem
    refine hl.store l (fun hmem' => ?_) fun hmem' => ?_
    · have heq := ((h.locks.held c' l).mp hmem).symm.trans ((h.locks.held c l).mp hmem')
      exact hc (some.inj heq)
    rw [← hG, ← hthr c'] at hmem
    rw [← hthr c] at hmem'
    have heq := ((h'.locks.held c' l).mp hmem).symm.trans ((h'.locks.held c l).mp hmem')
    exact hc (some.inj heq)
  refine ⟨hG, fun l hmem => (hstore l hmem).1, fun l hmem => (hstore l hmem).2, ?_⟩
  have hmine : ∀ p, s.cur c' = some p → Mine (some p) s.k s'.k := fun p hp =>
    hl.mine p fun hp' => hc (h.stack.inj c' c p hp hp')
  exact ⟨fun p hp => (hmine p hp).calling p rfl, fun p hp => (hmine p hp).result p rfl,
    fun p hp => (hmine p hp).stored p rfl⟩

/-- **A thread goes on after a step of its own.** -/
theorem Codes.local (hc : Codes strict s G a) (h : Pool strict fair s G a) (h' : Pool strict fair s' G' a')
    (hl : Local c s s' G G' a a') (hg : Goes s' s'' (s.thr c) x)
    (hx : Good strict (s.cur c) x ⟨G' (s.thr c), s'.k, a'⟩) : Codes strict s'' G' a' := by
  have hcur : s''.cur = s.cur := hg.cur.trans hl.cur
  have hthr : ∀ c, s''.thr c = s.thr c := fun c => by rw [Sys.thr, Sys.thr, hcur]
  have hrest : ∀ t, t ≠ s.thr c → rest s'' t = rest s t := fun t ht => (hg.other t ht).trans (congrFun hl.rest t)
  constructor
  · intro c'
    rw [hthr, hcur, hg.k]
    by_cases hcc : c' = c
    · rw [hcc, hg.self]
      exact hx
    · obtain ⟨hG, hag⟩ := hl.agree h h' hcc
      rw [hrest _ fun heq => hcc (h.stack.thr_inj heq), hG]
      exact (hc.cpu c').agree hag
  · intro c' p hp k a₁ hst hset
    rw [hcur] at hp
    have hne : Thread.sched c' ≠ s.thr c := by
      intro heq
      obtain ⟨hnone, rfl⟩ := idle_of_thr heq.symm
      rw [hnone] at hp
      cases hp
    rw [hrest _ hne, hl.notes _ hne]
    exact hc.sched c' p hp k a₁ hst hset
  · intro p hp hr k a₁ hm hst hset
    rw [hcur] at hp
    have hne : Thread.proc p ≠ s.thr c := fun heq => hp c (cur_of_thr heq.symm)
    rw [hg.k] at hm
    rw [hrest _ hne, hl.notes _ hne]
    exact hc.proc p hp (hl.ready p hp (hg.ready hr)) k a₁ ((hl.mine p (hp c)).trans hm) hst hset

/-- A thread goes on, and nothing else happens. -/
theorem Codes.goes (hc : Codes strict s G a) (h : Pool strict fair s G a) (hg : Goes s s' (s.thr c) x)
    (hx : Good strict (s.cur c) x ⟨G (s.thr c), s.k, a⟩) : Codes strict s' G a :=
  hc.local h h (.refl c s G a) hg hx

end Goes

/-! ### Switches -/

section Switches

variable [DecidableEq C] {strict fair : Prop} {s s' s'' : Sys n C} {G G' : Thread n C → Priv n} {a a' : Aux n} {c : C}
  {x : KProg n (Next n)} {p q : Fin n}

section

variable (h : Pool strict fair s G a) (hc : Codes strict s G a)

include h hc

/-- **A process that is being set up gets its context.** -/
theorem inv_setContext (hg : Goes ((s.setProg (.proc q) forkret).setTrap (.proc q) none) s'' (s.thr c) x)
    (hx : spec strict (s.cur c) (.setContext q) ⟨G (s.thr c), s.k, a⟩ fun _ m => Good strict (s.cur c) x m) :
    Inv strict fair s'' := by
  obtain ⟨hq, hchild, hx⟩ := hx
  set g := (G (s.thr c)).setChild (some q) true (G (s.thr c)).linked with hgdef
  have hself := h.marks.ok (s.thr c)
  obtain ⟨-, hwho, hused⟩ := hself.child q hchild
  have hoff : ∀ c', s.cur c' ≠ some q := by
    apply h.stack.off_cpu ((h.locks.held c _).mp hq)
    · rwa [← who_thr]
    · rw [hused]
      exact nofun
  have hne : s.thr c ≠ .proc q := fun heq => hoff c (cur_of_thr heq)
  have hpool : Pool strict fair (s.setK s.k) (update G (s.thr c) g) a := by
    apply h.tweak
    · rfl
    · rfl
    · rfl
    · rfl
    · exact fun _ _ => rfl
    · exact ⟨rfl, rfl, hchild.symm, rfl, rfl⟩
    · exact ⟨fun q' hq' => hself.child q' (hchild.trans hq'), hself.drowsy, hself.wakes, hself.blames, hself.tested⟩
    · exact h.life
    · apply h.kills.mono
      · exact fun _ hq => hq
      · exact fun _ _ hb => hb
      · exact fun _ hk => hk
      · intro t q' hq'
        rwa [update_field (g := g) Priv.blames rfl] at hq'
      · exact fun _ hw => hw
      · exact fun _ _ hst hch _ _ => ⟨hst, hch⟩
      · intro p' c' hl hw
        exact ⟨hl, (update_field (g := g) Priv.wakes rfl _).trans hw, fun hk => hk⟩
  set G' := update (update G (s.thr c) g) (.proc q) (Priv.unborn q) with hG'
  have hpool' : Pool strict fair s G' a := hpool.reset hused hoff
  have hGq : G' (.proc q) = Priv.unborn q := update_self ..
  have hGc : G' (s.thr c) = g := by rw [hG', update_of_ne hne, update_self]
  have hGne : ∀ t, t ≠ s.thr c → t ≠ .proc q → G' t = G t := fun t h₁ h₂ => by
    rw [hG', update_of_ne h₂, update_of_ne h₁]
  have hrest : ∀ t, t ≠ s.thr c → t ≠ .proc q → rest s'' t = rest s t := by
    intro t h₁ h₂
    rw [hg.other t h₁, rest, rest]
    simp only [Sys.setTrap_trap, Sys.setTrap_prog, Sys.setProg_prog, Sys.setProg_trap, update_of_ne h₂]
  refine ⟨G', a, hg.pool (hpool'.code rfl rfl rfl rfl rfl), ?_, ?_, ?_⟩
  · intro c'
    rw [hg.cur, hg.k, hg.thr]
    show Good strict (s.cur c') (rest s'' (s.thr c')) ⟨G' (s.thr c'), s.k, a⟩
    by_cases hcc : c' = c
    · have hself : rest s'' (s.thr c) = x := hg.self
      rw [hcc, hGc, hself]
      exact hx
    · have h₁ : s.thr c' ≠ s.thr c := fun heq => hcc (h.stack.thr_inj heq)
      have h₂ : s.thr c' ≠ .proc q := fun heq => hoff c' (cur_of_thr heq)
      rw [hGne _ h₁ h₂, hrest _ h₁ h₂]
      exact hc.cpu c'
  · intro c' p hp k a' hst hset
    rw [hg.cur] at hp
    have h₁ : Thread.sched c' ≠ s.thr c := by
      intro heq
      obtain ⟨hnone, rfl⟩ := idle_of_thr heq.symm
      exact absurd (hnone.symm.trans hp) nofun
    rw [hGne _ h₁ nofun, hrest _ h₁ nofun]
    exact hc.sched c' p hp k a' hst hset
  · intro p hp hr k a' hm hst hset
    rw [hg.cur] at hp
    rw [hg.k] at hm
    by_cases hpq : p = q
    · -- its code is `forkret` now
      subst hpq
      have hforkret : rest s'' (.proc p) = forkret := by
        rw [hg.other _ hne.symm, rest]
        simp only [Sys.setTrap_trap, Sys.setTrap_prog, Sys.setProg_prog, update_self]
      rw [hforkret, hGq]
      exact forkret_good hset rfl
    · have h₁ : Thread.proc p ≠ s.thr c := fun heq => hp c (cur_of_thr heq.symm)
      have h₂ : Thread.proc p ≠ (.proc q : Thread n C) := fun heq => hpq (Thread.proc.inj heq)
      rw [hGne _ h₁ h₂, hrest _ h₁ h₂]
      refine hc.proc p hp ?_ k a' hm hst hset
      refine (hg.ready hr).imp id ?_
      rintro ⟨t, ht, hctx⟩
      by_cases h₃ : t = s.thr c
      · rw [h₃, hGc] at ht
        exact absurd (some.inj ht).symm hpq
      by_cases h₄ : t = .proc q
      · rw [h₄, hGq] at ht
        cases ht
      · rw [hGne t h₃ h₄] at ht hctx
        exact ⟨t, ht, hctx⟩

/-- **A scheduler switches to a process**, which goes on where it has left. -/
theorem inv_swtchTo (hg : Goes (s.setCur c (some p)) s'' (s.thr c) x)
    (hx : spec strict (s.cur c) (.swtchTo p) ⟨G (s.thr c), s.k, a⟩ fun _ m => Good strict (s.cur c) x m) :
    Inv strict fair s'' := by
  obtain ⟨hidle, hgo, hheld, hwakes, hblames, hset, hx⟩ := hx
  rw [hidle] at hx
  rw [thr_of_idle hidle] at hg
  simp only [thr_of_idle hidle] at hgo hheld hwakes hblames hx
  obtain ⟨-, hst, hoff⟩ : s.lock (.proc p) = some c ∧ s.k.state p = .running ∧ ∀ c', s.cur c' ≠ some p := by
    have hat := h.stack.idle c hidle
    rwa [hgo] at hat
  have hcur : ∀ c', c' ≠ c → s''.cur c' = s.cur c' := fun c' hcc => by
    rw [hg.cur]
    exact update_of_ne hcc ..
  have hself : s''.cur c = some p := by
    rw [hg.cur]
    exact update_self ..
  have hrest : ∀ t, t ≠ .sched c → rest s'' t = rest s t := fun t ht => hg.other t ht
  have hk : s''.k = s.k := hg.k
  refine ⟨resume G c p, a, hg.pool (h.swtchTo hidle hgo hheld hwakes hblames), ?_, ?_, ?_⟩
  · intro c'
    rw [hk]
    by_cases hcc : c' = c
    · rw [hcc, thr_of_cur hself, hself, hrest (.proc p) nofun, resume_proc]
      refine hc.proc p hoff (.inl ?_) s.k a (.refl _ _) hst hset
      rw [hst]
      rfl
    · have hthr : s''.thr c' = s.thr c' := by rw [Sys.thr, Sys.thr, hcur c' hcc]
      have h₁ : s.thr c' ≠ .sched c := fun heq => hcc (idle_of_thr heq).2.symm
      have h₂ : s.thr c' ≠ .proc p := fun heq => hoff c' (cur_of_thr heq)
      have hG : resume G c p (s.thr c') = G (s.thr c') := by
        rw [resume, update_of_ne h₂, update_of_ne h₁]
      rw [hthr, hcur c' hcc, hrest _ h₁, hG]
      exact hc.cpu c'
  · intro c' p' hp' k a' hst' hset'
    by_cases hcc : c' = c
    · rw [hcc, hself] at hp'
      obtain rfl := some.inj hp'
      rw [hcc, hg.self, resume_sched]
      exact hx k a' hst' hset'
    · have h₁ : Thread.sched c' ≠ (.sched c : Thread n C) := fun heq => hcc (Thread.sched.inj heq)
      rw [hcur c' hcc] at hp'
      rw [hrest _ h₁, resume_sched_ne hcc]
      exact hc.sched c' p' hp' k a' hst' hset'
  · intro p' hp' hr k a' hm hst' hset'
    have hpp : p' ≠ p := by
      rintro rfl
      exact hp' c hself
    have hoff' : ∀ c', s.cur c' ≠ some p' := by
      intro c' hc'
      have hcc : c' ≠ c := by
        rintro rfl
        rw [hidle] at hc'
        cases hc'
      exact hp' c' ((hcur c' hcc).trans hc')
    rw [hk] at hm
    rw [hrest (.proc p') nofun, resume_proc_ne hpp]
    refine hc.proc p' hoff' ?_ k a' hm hst' hset'
    refine (hg.ready hr).imp id ?_
    rintro ⟨t, ht, hctx⟩
    rw [resume_field Priv.child fun _ _ => rfl] at ht
    rw [resume_field Priv.ctx fun _ _ => rfl] at hctx
    exact ⟨t, ht, hctx⟩

/-- **A process switches to the scheduler of its CPU.** -/
theorem inv_swtch (hg : Goes (s.setCur c none) s'' (s.thr c) x)
    (hx : spec strict (s.cur c) .swtch ⟨G (s.thr c), s.k, a⟩ fun _ m => Good strict (s.cur c) x m) :
    Inv strict fair s'' := by
  obtain ⟨p, hp, hleave, hheld, hwakes, hset, hx⟩ := hx
  rw [hp] at hx
  rw [thr_of_cur hp] at hg
  simp only [thr_of_cur hp] at hleave hheld hwakes hx
  have hst : s.k.state p ≠ .running := by
    have hat := h.stack.proc c p hp
    rw [hleave] at hat
    exact hat.2
  have hcur : ∀ c', c' ≠ c → s''.cur c' = s.cur c' := fun c' hcc => by
    rw [hg.cur]
    exact update_of_ne hcc ..
  have hself : s''.cur c = none := by
    rw [hg.cur]
    exact update_self ..
  have hrest : ∀ t, t ≠ .proc p → rest s'' t = rest s t := fun t ht => hg.other t ht
  have hk : s''.k = s.k := hg.k
  refine ⟨G, a, hg.pool (h.swtch hp hleave hheld hwakes), ?_, ?_, ?_⟩
  · intro c'
    rw [hk]
    by_cases hcc : c' = c
    · rw [hcc, thr_of_idle hself, hself, hrest (.sched c) (by rintro ⟨⟩)]
      exact hc.sched c p hp s.k a hst hset
    have hthr : s''.thr c' = s.thr c' := by rw [Sys.thr, Sys.thr, hcur c' hcc]
    have hne : s.thr c' ≠ .proc p := fun heq => hcc (h.stack.inj c' c p (cur_of_thr heq) hp)
    rw [hthr, hcur c' hcc, hrest _ hne]
    exact hc.cpu c'
  · intro c' p' hp' k a' hst' hset'
    have hcc : c' ≠ c := by
      rintro rfl
      rw [hself] at hp'
      cases hp'
    rw [hcur c' hcc] at hp'
    rw [hrest (.sched c') (by rintro ⟨⟩)]
    exact hc.sched c' p' hp' k a' hst' hset'
  · intro p' hp' hr k a' hm hst' hset'
    rw [hk] at hm
    rcases eq_or_ne p' p with rfl | hpp
    · rw [hg.self]
      exact hx k a' hm hst' hset'
    have hne : Thread.proc p' ≠ (.proc p : Thread n C) := fun heq => hpp (Thread.proc.inj heq)
    rw [hrest _ hne]
    refine hc.proc p' (fun c' hc' => ?_) (hg.ready hr) k a' hm hst' hset'
    by_cases hcc : c' = c
    · rw [hcc, hp] at hc'
      exact hpp (some.inj hc').symm
    · exact hp' c' ((hcur c' hcc).trans hc')

omit [DecidableEq C] in
/-- A thread goes on after what it has taken care of. -/
theorem inv_taken {α : Type} {f : α → KProg n (Next n)} {r : α} (ht : Taken strict fair c s s' G a (fun r m => Good strict (s.cur c) (f r) m) r)
    (hg : Goes s' s'' (s.thr c) (f r)) : Inv strict fair s'' := by
  obtain ⟨G', a', hpool, hlocal, k₁, a₁, hx, hag⟩ := ht
  exact ⟨G', a', hg.pool hpool, hc.local h hpool hlocal hg (Good.agree hag hx)⟩

/-- **A CPU carries out the next operation of its thread.** -/
theorem inv_op {o : Op n} {f : o.Resp → KProg n (Next n)} {r : o.Resp} {hint : Option UInt8}
    (hrest : rest s (s.thr c) = .call o f)
    (hfair : fair → ∀ q, o = .setKilled q true → s.k.window q = false) (hex : exec c hint s o = .ok (s', r))
    (hg : Goes s' s'' (s.thr c) (f r)) : Inv strict fair s'' := by
  have hgood := hc.cpu c
  rw [hrest] at hgood
  by_cases hplain : o.plain = true
  · exact inv_taken h hc (op_sound h hplain hfair hgood hex) hg
  cases o with
  | swtchTo p =>
    cases hex
    exact inv_swtchTo h hc hg hgood
  | swtch =>
    cases hex
    exact inv_swtch h hc hg hgood
  | setContext q =>
    cases hex
    exact inv_setContext h hc hg hgood
  | _ => exact absurd rfl hplain

end

end Switches

/-! ### Steps of the machine -/

section Steps

variable [DecidableEq C] {strict fair : Prop} {s s' : Sys n C} {G : Thread n C → Priv n} {a : Aux n} {c : C}
  {p q : Fin n}

variable {t : Thread n C}

omit [NeZero n] in
theorem goes_setProg (x : KProg n (Next n)) (ht : s.trap t = none) : Goes s (s.setProg t x) t x where
  cur := rfl
  lock := rfl
  noff := rfl
  cproc := rfl
  k := rfl
  self := by
    rw [rest, Sys.setProg_trap, ht]
    exact update_self ..
  other t' ht' := by
    simp only [rest, Sys.setProg_trap, Sys.setProg_prog, update_of_ne ht']

omit [NeZero n] in
theorem goes_setTrap (s : Sys n C) (t : Thread n C) (x : KProg n Unit) :
    Goes s (s.setTrap t (some x)) t (do x; s.prog t) where
  cur := rfl
  lock := rfl
  noff := rfl
  cproc := rfl
  k := rfl
  self := by simp only [rest, Sys.setTrap_trap, update_self, Sys.setTrap_prog]
  other t' ht' := by simp only [rest, Sys.setTrap_trap, Sys.setTrap_prog, update_of_ne ht']

/-- The operation that a CPU carries out next. -/
def nextOp (s : Sys n C) (c : C) : Option (Op n) :=
  match rest s (s.thr c) with
  | .call o _ => some o
  | .ret _ => none

variable {o : Op n} {hint : Option UInt8}

omit [NeZero n] in
/-- Only `setContext` changes what another thread does. -/
theorem exec_code {r : o.Resp} (hex : exec c hint s o = .ok (s', r))
    (ht : ∀ q, o = .setContext q → t ≠ .proc q) : s'.prog t = s.prog t ∧ s'.trap t = s.trap t := by
  cases o with
  | setContext q =>
    cases hex
    exact ⟨update_of_ne (ht q rfl) .., update_of_ne (ht q rfl) ..⟩
  | acquire l =>
    rw [exec] at hex
    split at hex
    · cases hex
    split at hex
    · cases hex
      exact ⟨rfl, rfl⟩
    · cases hex
  | release l =>
    rw [exec] at hex
    split at hex
    · cases hex
      exact ⟨rfl, rfl⟩
    · cases hex
  | copyout addr status =>
    simp only [exec] at hex
    split at hex
    · cases hex
      exact ⟨rfl, rfl⟩
    · cases hex
      exact ⟨rfl, rfl⟩
  | panic msg => cases hex
  | _ =>
    cases hex
    exact ⟨rfl, rfl⟩

omit [DecidableEq C] in
/-- A thread does not set up its own context. -/
theorem context_other {f : o.Resp → KProg n (Next n)} (h : Pool strict fair s G a) (hc : Codes strict s G a)
    (hrest : rest s (s.thr c) = .call o f) : ∀ q, o = .setContext q → s.thr c ≠ .proc q := by
  rintro q rfl heq
  have hgood := hc.cpu c
  rw [hrest] at hgood
  have hchild := ((h.marks.ok (s.thr c)).child q hgood.2.1).2.1
  rw [heq] at hchild
  exact hchild rfl

omit [DecidableEq C] in
/-- Where no lock is held, a trap may be taken. -/
theorem Pool.steady (h : Pool strict fair s G a) (hnoff : s.noff c = 0) :
    (G (s.thr c)).held = [] ∧ Steady (s.cur c) (G (s.thr c)) := by
  have hheld : (G (s.thr c)).held = [] := List.eq_nil_of_length_eq_zero ((h.locks.noff c).symm.trans hnoff)
  have hfree : ∀ l, s.lock l ≠ some c := by
    intro l hl
    have hmem := (h.locks.held c l).mpr hl
    rw [hheld] at hmem
    cases hmem
  have hself := h.marks.ok (s.thr c)
  refine ⟨hheld, ?_, ?_, ?_, ?_⟩
  · rcases hc : s.cur c with - | p
    · have hat := h.stack.idle c hc
      rw [thr_of_idle hc]
      rcases hph : (G (.sched c)).phase with _ | _ | _ | r | r | r <;> rw [hph] at hat
      · exact hat.elim
      · exact hat.elim
      · rfl
      · exact absurd hat.1 (hfree _)
      · exact absurd hat.1 (hfree _)
      · exact absurd hat (hfree _)
    · rw [thr_of_cur hc]
      exact (h.stack.on_cpu hc (hfree _)).1
  · by_contra hne
    obtain ⟨l, hl⟩ := ne_none_iff_exists'.mp hne
    obtain ⟨c', p, ht, hc', hlock, -⟩ := hself.drowsy l hl
    have hcc : c = c' := h.stack.inj c c' p (cur_of_thr ht) hc'
    exact hfree _ (hcc ▸ hlock)
  · by_contra hne
    obtain ⟨q, hq⟩ := ne_none_iff_exists'.mp hne
    obtain ⟨c', ht, hlock⟩ := hself.wakes q hq
    exact hfree _ (h.stack.thr_inj ht ▸ hlock)
  · intro q hq
    rcases hself.blames q hq with ⟨-, c', ht, hlock⟩ | ⟨ht, -⟩
    · exact absurd (h.stack.thr_inj ht ▸ hlock) (hfree _)
    · exact cur_of_thr ht

omit [DecidableEq C] [NeZero n] in
theorem rest_of_no_trap (ht : s.trap t = none) : rest s t = s.prog t := by rw [rest, ht]

/-- **A trap interrupts a thread**, which does not notice. -/
theorem inv_trap {x : KProg n Unit} (h : Pool strict fair s G a) (hc : Codes strict s G a)
    (hnoff : s.noff c = 0) (htrap : s.trap (s.thr c) = none)
    (hx : ∀ m : Know n, Steady (s.cur c) m.g → m.g.held = [] →
      x.wp (spec strict (s.cur c)) m fun _ m' => m'.g = m.g ∧ Mine (s.cur c) m.k m'.k) :
    Inv strict fair (s.setTrap (s.thr c) (some x)) := by
  obtain ⟨hheld, hsteady⟩ := h.steady hnoff
  have hg := goes_setTrap s (s.thr c) x
  refine ⟨G, a, hg.pool h, hc.goes h hg ?_⟩
  have hgood := hc.cpu c
  rw [rest_of_no_trap htrap] at hgood
  rw [Good, Prog.wp_bind]
  apply wp_imp (hx _ hsteady hheld)
  rintro - ⟨_, k', a'⟩ ⟨rfl, hm⟩
  refine Good.agree ⟨fun l hl => ?_, fun l hl => ?_, hm⟩ hgood
  · rw [hheld] at hl
    cases hl
  · rw [hheld] at hl
    cases hl

omit [DecidableEq C] [NeZero n] in
theorem inUser_iff : inUser s c = true ↔
    (∃ p, s.cur c = some p) ∧ s.trap (s.thr c) = none ∧ s.prog (s.thr c) = .ret .user := by
  rw [inUser]
  split
  · rename_i hc ht hp
    exact ⟨fun _ => ⟨⟨_, hc⟩, ht, hp⟩, fun _ => rfl⟩
  rename_i hno
  refine ⟨nofun, ?_⟩
  rintro ⟨⟨p, hc⟩, ht, hp⟩
  exact absurd hp (hno p hc ht)

omit [DecidableEq C] in
/-- What is known of a process in user space. -/
theorem Codes.user (hc : Codes strict s G a) (hu : inUser s c = true) : ∃ p, s.cur c = some p ∧
    s.trap (s.thr c) = none ∧ Calm (some p) (G (s.thr c)) ∧ (G (s.thr c)).held = [] := by
  obtain ⟨⟨p, hp⟩, ht, hprog⟩ := inUser_iff.mp hu
  have hgood := hc.cpu c
  rw [rest_of_no_trap ht, hprog, hp] at hgood
  exact ⟨p, hp, ht, hgood.1, hgood.2.2⟩

/-- A process leaves user space. -/
theorem inv_user {x : KProg n (Next n)} (h : Pool strict fair s G a) (hc : Codes strict s G a) (hu : inUser s c = true)
    (hx : ∀ p (m : Know n), Calm (some p) m.g → m.g.held = [] → Good strict (some p) x m) :
    Inv strict fair (s.setProg (s.thr c) x) := by
  obtain ⟨p, hp, ht, hcalm, hheld⟩ := hc.user hu
  have hg := goes_setProg x ht
  refine ⟨G, a, hg.pool h, hc.goes h hg ?_⟩
  rw [hp]
  exact hx p _ hcalm hheld

/-- `killed` is not set between the test and the sleep. -/
def Act.timely (s : Sys n C) : Act C → Bool
  | .step c _ =>
    match nextOp s c with
    | some (.setKilled q true) => !s.k.window q
    | _ => true
  | _ => true

/-- `kill` is not called with pid 0. -/
def Act.named : Act C → Bool
  | .call _ (.kill pid) => pid ≠ 0
  | _ => true

theorem inv_cpuStep (h : Inv strict fair s) (hfair : fair → (Act.step c hint).timely s = true)
    (hstep : cpuStep s c hint = .ok s') : Inv strict fair s' := by
  obtain ⟨G, a, h, hc⟩ := h
  have hop : ∀ o f, rest s (s.thr c) = .call o f → fair → ∀ q, o = .setKilled q true → s.k.window q = false := by
    rintro o f hrest hf q rfl
    have hq := hfair hf
    rw [Act.timely, nextOp, hrest] at hq
    simpa using hq
  rw [cpuStep] at hstep
  split at hstep
  · -- the trap is over
    rename_i ht
    cases hstep
    have hg : Goes s (s.setTrap (s.thr c) none) (s.thr c) (rest s (s.thr c)) := by
      refine ⟨rfl, rfl, rfl, rfl, rfl, ?_, fun t' ht' => ?_⟩
      · rw [rest, rest, ht]
        simp only [Sys.setTrap_trap, update_self]
        rfl
      · simp only [rest, Sys.setTrap_trap, Sys.setTrap_prog, update_of_ne ht']
    exact ⟨G, a, hg.pool h, hc.goes h hg (hc.cpu c)⟩
  · rename_i o f ht
    have hrest : rest s (s.thr c) = .call o (fun r => (do f r; s.prog (s.thr c))) := by
      rw [rest, ht]
      rfl
    split at hstep
    · rename_i s₁ r hex
      cases hstep
      refine inv_op h hc hrest (hop o _ hrest) hex ?_
      rw [← (exec_code hex (context_other h hc hrest)).1]
      exact goes_setTrap s₁ _ _
    · cases hstep
    · cases hstep
  · rename_i ht
    split at hstep
    · cases hstep
    · -- a round of a loop is over
      rename_i next _ hp
      cases hstep
      have hgood := hc.cpu c
      rw [rest_of_no_trap ht, hp] at hgood
      have hg := goes_setProg next.prog ht
      exact ⟨G, a, hg.pool h, hc.goes h hg (next_good next hgood.1 hgood.2)⟩
    · rename_i o f hp
      have hrest : rest s (s.thr c) = .call o f := (rest_of_no_trap ht).trans hp
      split at hstep
      · rename_i s₁ r hex
        cases hstep
        refine inv_op h hc hrest (hop o _ hrest) hex ?_
        apply goes_setProg
        rw [(exec_code hex (context_other h hc hrest)).2, ht]
      · cases hstep
      · cases hstep

/-- A process makes a system call. -/
theorem inv_call {call : Call} (h : Pool strict fair s G a) (hc : Codes strict s G a) (hp : s.cur c = some p)
    (hu : inUser s c = true) (hok : call.ok = true) (hkill : ∀ pid, call = .kill pid → strict → pid ≠ 0) :
    Inv strict fair ((s.setK (s.k.note (.called p call))).setProg (.proc p) (usertrapCall call)) := by
  obtain ⟨p', hp', ht, hcalm, hheld⟩ := hc.user hu
  obtain rfl : p' = p := some.inj (hp'.symm.trans hp)
  have htaken : Taken strict fair c s (s.setK (s.k.note (.called p' call))) G a
      (fun r m => Good strict (s.cur c) (id r) m) (usertrapCall call) := by
    refine taken_note h (fun _ => rfl) (fun _ => rfl) (fun _ hb => hb) ?_ ?_
    · intro q hq
      have hne : p' ≠ q := fun hpq => hq (hpq ▸ hp)
      refine ⟨?_, ?_, fun _ _ => rfl⟩
      · rintro _ ⟨⟩
        exact (if_neg hne).symm
      · rintro _ ⟨⟩
        exact (if_neg hne).symm
    · rw [hp]
      exact usertrapCall_good call hok hkill ⟨hcalm, hheld⟩ (if_pos rfl) (if_pos rfl)
  refine inv_taken h hc htaken ?_
  rw [thr_of_cur hp] at ht ⊢
  exact goes_setProg (usertrapCall call) ht

/-- **Every step keeps the invariant.** -/
theorem inv_act {l : Act C} (h : Inv strict fair s) (hs : strict → l.named = true) (hf : fair → l.timely s = true)
    (hstep : cpus s l = .ok s') : Inv strict fair s' := by
  cases l with
  | step c hint => exact inv_cpuStep h hf hstep
  | call c call =>
    obtain ⟨G, a, h, hc⟩ := h
    rw [cpus] at hstep
    split at hstep
    · rename_i p hp
      split at hstep
      · rename_i hu
        cases hstep
        refine inv_call h hc hp hu.1 hu.2 ?_
        rintro pid rfl hstrict
        simpa [Act.named] using hs hstrict
      · cases hstep
    · cases hstep
  | fault c =>
    obtain ⟨G, a, h, hc⟩ := h
    rw [cpus] at hstep
    split at hstep
    · cases hstep
      exact inv_user h hc ‹_› fun p m hcalm hheld => usertrapFault_good ⟨hcalm, hheld⟩
    · cases hstep
  | tick c =>
    obtain ⟨G, a, h, hc⟩ := h
    rw [cpus] at hstep
    split at hstep
    · rename_i hidle
      split at hstep
      · cases hstep
        exact inv_user h hc ‹_› fun p m hcalm hheld => usertrapTick_good ⟨hcalm, hheld⟩
      · cases hstep
        exact inv_trap h hc hidle.1 (isNone_iff_eq_none.mp hidle.2) fun m hst hheld =>
          kerneltrapTick_spec hst hheld
    · cases hstep
  | intr c x =>
    obtain ⟨G, a, h, hc⟩ := h
    rw [cpus] at hstep
    split at hstep
    · rename_i hidle
      split at hstep
      · cases hstep
        exact inv_user h hc ‹_› fun p m hcalm hheld => usertrapIntr_good x hidle.2.2 ⟨hcalm, hheld⟩
      · cases hstep
        exact inv_trap h hc hidle.1 (isNone_iff_eq_none.mp hidle.2.1) fun m hst hheld =>
          handler_spec x hidle.2.2 hst hheld
    · cases hstep

end Steps

/-! ### Runs -/

section Runs

variable (cond : Nat → Bool) (pipe : Nat → Pipe) (cons : Cons)

/-- The notes of the threads when the CPUs enter their schedulers. -/
def bootPriv : Thread n C → Priv n
  | .proc p => Priv.unborn p
  | .sched _ => Priv.fresh.setPhase .idle

/-- Nothing is noted. -/
def bootAux : Aux n where
  nz := fun _ => false
  passed := fun _ _ => false
  dirty := false
  freeing := none

theorem boot_state (q : Fin n) : (boot cond pipe cons : Sys n C).k.state q = .runnable ∧ q = initproc ∨
    (boot cond pipe cons : Sys n C).k.state q = .unused ∧ q ≠ initproc := by
  by_cases hq : q = initproc
  · exact .inl ⟨if_pos hq, hq⟩
  · exact .inr ⟨if_neg hq, hq⟩

theorem boot_settled (q : Fin n) : Settled (boot cond pipe cons : Sys n C).k q := by
  rcases boot_state cond pipe cons q with ⟨hst, hq⟩ | ⟨hst, hq⟩
  · rw [Settled, hst]
    show (if initproc = q then _ else _) = some (Stage.live (if q = initproc then 1 else 0))
    rw [if_pos hq.symm, if_pos hq]
    rfl
  · rw [Settled, hst]
    refine ⟨?_, if_neg hq⟩
    show (if initproc = q then _ else _) = some Stage.free
    rw [if_neg (Ne.symm hq)]
    rfl

omit [NeZero n] in
theorem boot_marks (t : Thread n C) : (bootPriv t).child = none ∧ (bootPriv t).drowsy = none ∧ (bootPriv t).tested = false ∧
    (bootPriv t).wakes = none ∧ (bootPriv t).blames = none := by
  cases t <;> exact ⟨rfl, rfl, rfl, rfl, rfl⟩

theorem boot_pool (strict fair : Prop) : Pool strict fair (boot cond pipe cons : Sys n C) bootPriv bootAux := by
  have hnot : ∀ q, (boot cond pipe cons : Sys n C).k.state q ≠ .sleeping ∧
      (boot cond pipe cons : Sys n C).k.state q ≠ .zombie ∧ (boot cond pipe cons : Sys n C).k.state q ≠ .running := by
    intro q
    rcases boot_state cond pipe cons q with ⟨hst, -⟩ | ⟨hst, -⟩ <;> rw [hst] <;> exact ⟨by rintro ⟨⟩, by rintro ⟨⟩, by rintro ⟨⟩⟩
  have hasleep : ∀ ch p, ¬ Asleep (boot cond pipe cons : Sys n C) bootPriv ch p := by
    rintro ch p (⟨hst, -⟩ | hd)
    · exact (hnot p).1 hst
    · cases hd
  refine ⟨⟨?_, ?_, ?_⟩, ⟨?_, ?_, ?_, ?_, ?_, ?_, ?_⟩, ⟨?_, ?_⟩, ⟨?_, ?_⟩, ⟨?_, ?_, ?_, ?_, ?_, ?_, ?_⟩, ⟨?_, ?_, ?_⟩, ⟨?_, ?_, ?_, ?_⟩⟩
  · exact fun c l => ⟨by rintro ⟨⟩, by rintro ⟨⟩⟩
  · exact fun c => List.nodup_nil
  · exact fun c => rfl
  · exact fun c => rfl
  · exact fun c _ => trivial
  · exact fun c p => (by rintro ⟨⟩)
  · exact fun c p => (by rintro ⟨⟩)
  · exact fun c c' p => (by rintro ⟨⟩)
  · exact fun p hp => absurd hp (hnot p).2.2
  · exact fun p _ => ⟨rfl, rfl⟩
  · intro t
    obtain ⟨h₁, h₂, h₃, h₄, h₅⟩ := boot_marks t
    refine ⟨fun q hq => ?_, fun l hl => ?_, fun q hq => ?_, fun q hq => ?_, fun p hp => ⟨h₃, fun ht => ?_⟩⟩
    · exact absurd (h₁.symm.trans hq) (by rintro ⟨⟩)
    · exact absurd (h₂.symm.trans hl) (by rintro ⟨⟩)
    · exact absurd (h₄.symm.trans hq) (by rintro ⟨⟩)
    · exact absurd (h₅.symm.trans hq) (by rintro ⟨⟩)
    · exact absurd (h₃.symm.trans ht) (by rintro ⟨⟩)
  · exact fun t t' q hq => absurd ((boot_marks t).1.symm.trans hq) (by rintro ⟨⟩)
  · exact fun i p _ _ => hasleep _ p
  · exact fun ch p hl => absurd rfl hl
  · exact fun q _ => rfl
  · exact fun t q hq => absurd ((boot_marks t).1.symm.trans hq) (by rintro ⟨⟩)
  · exact fun q r => (by rintro ⟨⟩)
  · intro q hq hal
    rcases boot_state cond pipe cons q with ⟨-, hinit⟩ | ⟨hst, -⟩
    · exact absurd hinit hq
    · rw [hst] at hal
      rcases hal with hal | hal <;> cases hal
  · rcases boot_state (C := C) cond pipe cons (initproc : Fin n) with ⟨hst, -⟩ | ⟨-, hne⟩
    · rfl
    · exact absurd rfl hne
  · exact fun q r hz => absurd hz (hnot q).2.1
  · exact fun q hl => absurd rfl hl
  · exact fun q _ => boot_settled cond pipe cons q
  · intro q
    show (if initproc = q then _ else _) ≠ none
    split <;> rintro ⟨⟩
  · intro q hq
    rcases boot_state cond pipe cons q with ⟨-, hinit⟩ | ⟨hst, -⟩
    · show (if initproc = q then _ else _) ≠ none
      rw [if_pos hinit.symm]
      rintro ⟨⟩
    · exact absurd hst hq
  · exact fun _ q => (by rintro ⟨⟩)
  · exact fun _ t q hq => absurd ((boot_marks t).2.2.2.2.symm.trans hq) (by rintro ⟨⟩)
  · exact fun _ p => (by rintro ⟨⟩)
  · exact fun _ p ch hst => absurd hst (hnot p).1

theorem boot_inv (strict fair : Prop) : Inv strict fair (boot cond pipe cons : Sys n C) := by
  refine ⟨bootPriv, bootAux, boot_pool cond pipe cons strict fair, ?_, ?_, ?_⟩
  · exact fun c => ⟨⟨rfl, rfl, rfl, rfl, rfl, rfl, rfl, rfl⟩, rfl, rfl⟩
  · exact fun c p => nofun
  · exact fun p _ _ k a' _ _ hset => forkret_good hset rfl

variable {cond pipe cons} [DecidableEq C] {s : Sys n C} {ls : List (Act C)}

/-- **The invariant holds in every state that is reached.** -/
theorem inv_run (h : Machine.Run cpus (boot cond pipe cons) ls s) : Inv False False s :=
  h.invariant (fun _ _ _ hi hs => inv_act hi False.elim False.elim hs) (boot_inv cond pipe cons False False)

/-- If `kill` is not called with pid 0, more holds. -/
theorem inv_run_named (h : Machine.Along cpus (fun _ l => l.named = true) (boot cond pipe cons : Sys n C) ls)
    (ho : Machine.outcome cpus (boot cond pipe cons) ls = .ok s) : Inv True False s :=
  h.invariant (fun _ _ _ hi hq hs => inv_act hi (fun _ => hq) False.elim hs) ho (boot_inv cond pipe cons True False)

theorem inv_run_timely (h : Machine.Along cpus (fun s l => l.timely s = true) (boot cond pipe cons : Sys n C) ls)
    (ho : Machine.outcome cpus (boot cond pipe cons) ls = .ok s) : Inv False True s :=
  h.invariant (fun _ _ _ hi hq hs => inv_act hi False.elim (fun _ => hq) hs) ho (boot_inv cond pipe cons False True)

end Runs

end Xv6.Sched
