/-
Xv6/ProcCode.lean

The code of proc.c keeps to the rules.

Every program is carried out symbolically: `wp` turns it into the rules of its
operations, one after the other.  What a part of the code leaves behind is said
by `Later`: the same locks are held, what they protect is as it was, and what
was noted is still noted.  The two loops that the rest depends on are `wakeup`,
which has looked at every process when it is over, and the scan of `wait`.
-/
import Xv6.ProcView

namespace Xv6.Sched

open Function List Prog

variable {n : Nat}

/-! ### Views -/

section Views

variable {who : Option (Fin n)} {held : List (Lock n)} {k k' k'' : Store n} {a a' a'' : Aux n}

/-- The thread is back where it was, and knows at least as much. -/
structure Later (who : Option (Fin n)) (m m' : Know n) : Prop where
  g : m'.g = m.g
  store : ∀ l ∈ m.g.held, SameStore m.k m'.k l
  mine : Mine who m.k m'.k
  nz : .wait ∈ m.g.held → ∀ q, m.a.nz q = true → m'.a.nz q = true
  passed : ∀ ch q, lockOf ch ∈ m.g.held → m.a.passed ch q = true → m'.a.passed ch q = true
  dirty : .wait ∈ m.g.held → m'.a.dirty = m.a.dirty
  freeing : .wait ∈ m.g.held → m'.a.freeing = m.a.freeing

theorem Later.refl (m : Know n) : Later who m m :=
  ⟨rfl, fun l _ => .refl _ l, .refl _ _, fun _ _ h => h, fun _ _ _ h => h, fun _ => rfl, fun _ => rfl⟩

theorem Later.trans {m m' m'' : Know n} (h : Later who m m') (h' : Later who m' m'') : Later who m m'' := by
  have hg : m'.g.held = m.g.held := congrArg Priv.held h.g
  refine ⟨h'.g.trans h.g, fun l hl => (h.store l hl).trans (h'.store l (hg ▸ hl)), h.mine.trans h'.mine,
    fun hw q hq => h'.nz (hg ▸ hw) q (h.nz hw q hq),
    fun ch q hl hq => h'.passed ch q (hg ▸ hl) (h.passed ch q hl hq),
    fun hw => (h'.dirty (hg ▸ hw)).trans (h.dirty hw), fun hw => (h'.freeing (hg ▸ hw)).trans (h.freeing hw)⟩

end Views

/-! ### Locks -/

section Locks

variable {strict : Prop} {who : Option (Fin n)} {m : Know n} {g : Priv n} {l : Lock n}

/-- A value that is read under its lock. -/
theorem of_held {held : List (Lock n)} {A B : Prop} (hl : l ∈ held) (h : A) : (l ∈ held → A) ∧ (l ∉ held → B) :=
  ⟨fun _ => h, fun hnot => absurd hl hnot⟩

/-- Releasing the lock that was acquired last, by a thread that does not go to sleep. -/
theorem unlock_cons (h : ∀ p, who = some p → .proc p ∉ g.held) : (g.setHeld (l :: g.held)).unlock who l = g := by
  have hc : ¬ (Commits who (g.setHeld (l :: g.held)) ∧ who.map Lock.proc ≠ some l) := by
    rintro ⟨⟨p, rfl, hmem, -⟩, hne⟩
    rcases mem_cons.mp hmem with rfl | hmem
    · exact hne rfl
    · exact h p rfl hmem
  rw [Priv.unlock]
  simp only [if_neg hc]
  ext <;> simp

theorem unlock_of_not (h : ¬ Commits who g) : g.unlock who l = g.setHeld (g.held.erase l) := by
  rw [Priv.unlock, if_neg fun hc => h hc.1]

theorem unlock_single (hheld : g.held = []) : (g.setHeld [l]).unlock who l = g := by
  have hcons : (g.setHeld (l :: g.held)).unlock who l = g := unlock_cons (by simp [hheld])
  rwa [hheld] at hcons

theorem Calm.setHeld (h : Calm who g) (held : List (Lock n)) : Calm who (g.setHeld held) :=
  ⟨h.phase, h.child, h.ctx, h.linked, h.drowsy, h.tested, h.wakes, h.blames⟩

/-- The thread is not in a switch and not about to sleep, and need not wake anybody up. -/
structure Steady (who : Option (Fin n)) (g : Priv n) : Prop where
  phase : g.phase = if who = none then .idle else .run
  drowsy : g.drowsy = none
  wakes : g.wakes = none
  blames : ∀ q, g.blames = some q → who = some q

variable {g : Priv n}

theorem Calm.steady (h : Calm who g) : Steady who g :=
  ⟨h.phase, h.drowsy, h.wakes, fun q hq => by simp [h.blames] at hq⟩

theorem Steady.setTested (h : Steady who g) (b : Bool) : Steady who (g.setTested b) :=
  ⟨h.phase, h.drowsy, h.wakes, h.blames⟩

/-- The thread has no lock. -/
structure Free (who : Option (Fin n)) (g : Priv n) : Prop extends Calm who g where
  held : g.held = []

variable {q : Fin n} {k : Store n}

/-- A process may release the lock of a process that is in order. -/
theorem Calm.gives [NeZero n] {p : Fin n} {a : Aux n} (h : Calm (some p) g) (held : List (Lock n))
    (hset : Settled k q) : Gives (some p) ⟨g.setHeld held, k, a⟩ (.proc q) :=
  ⟨hset, fun _ => ⟨h.phase, h.drowsy⟩, nofun, by simp [h.wakes], by simp [h.blames]⟩

theorem Calm.untest (h : Calm who g) (b : Bool) : (g.setTested b).setTested false = g := by
  ext <;> simp [h.tested]

theorem lockOf_ne_proc (ch : Chan n) (q : Fin n) : lockOf ch ≠ .proc q := by
  cases ch <;> simp [lockOf]

@[simp] theorem Aux.lock_proc (a : Aux n) (k : Store n) (q : Fin n) : a.lock k (.proc q) = a := by
  simp [Aux.lock, lockOf_ne_proc]

@[simp] theorem Aux.lock_pid (a : Aux n) (k : Store n) : a.lock k .pid = a := by
  have hne : ∀ ch : Chan n, lockOf ch ≠ .pid := fun ch => by cases ch <;> simp [lockOf]
  simp [Aux.lock, hne]

/-- The state of a sleeping process changes to RUNNABLE. -/
theorem Settled.wake (h : Settled k q) (hst : k.state q = .sleeping) : Settled (k.setState q .runnable) q := by
  rw [Settled, hst] at h
  simpa [Settled] using h

end Locks

/-! ### wakeup -/

section Wakeup

variable {strict : Prop} {who : Option (Fin n)} {m : Know n} [NeZero n]

/-- The thread may call `wakeup`. -/
structure WakeOk (who : Option (Fin n)) (g : Priv n) : Prop where
  held : ∀ q, .proc q ∉ g.held
  wakes : g.wakes = none
  blames : ∀ q, g.blames = some q → who = some q
  phase : who = none → g.phase = .idle

omit [NeZero n] in
theorem Steady.wakeOk {g : Priv n} (h : Steady who g) (hheld : ∀ q, .proc q ∉ g.held) : WakeOk who g :=
  ⟨hheld, h.wakes, h.blames, fun hw => by rw [h.phase, if_pos hw]⟩

omit [NeZero n] in
/-- A process has been looked at under its lock. -/
theorem later_visit {k k' : Store n} {a a' : Aux n} {q : Fin n} (hag : Agree who m.g.held m.k k m.a a)
    (hk : ∀ l ∈ m.g.held, SameStore k k' l) (hmine : Mine who k k')
    (ha' : a' = a ∨ a' = a.setNz q) :
    Later who m ⟨m.g, k', a'.pass (.proc q :: m.g.held) k' q⟩ := by
  have hnz : ∀ q', a.nz q' = true → a'.nz q' = true := by
    rintro q' h
    rcases ha' with rfl | rfl
    · exact h
    · by_cases hq : q' = q
      · simp [hq]
      · simpa [hq] using h
  have hsame : a'.passed = a.passed ∧ a'.dirty = a.dirty ∧ a'.freeing = a.freeing := by
    rcases ha' with rfl | rfl <;> exact ⟨rfl, rfl, rfl⟩
  refine ⟨rfl, fun l hl => (hag.store l hl).trans (hk l hl), hag.mine.trans hmine, fun hw q' h => ?_,
    fun ch q' hl h => ?_, fun hw => ?_, fun hw => ?_⟩
  · apply hnz
    rw [← (hag.aux _ hw).nz rfl]
    exact h
  · show (if _ then true else a'.passed ch q') = true
    rw [hsame.1, ← (hag.aux _ hl).passed ch rfl, h, ite_self]
  · exact hsame.2.1.trans ((hag.aux _ hw).dirty rfl).symm
  · exact hsame.2.2.trans ((hag.aux _ hw).freeing rfl).symm

/-- **A process that `wakeup` has looked at is not asleep on the channel.** -/
theorem wakeOne_spec (ch : Option (Chan n)) (p : Fin n) (h : WakeOk who m.g) :
    (wakeOne ch p).wp (spec strict who) m fun _ m' => Later who m m' ∧
      (who ≠ some p → ∀ c, ch = some c → lockOf c ∈ m.g.held → m'.a.passed c p = true) := by
  have hme : (who <|> m.g.phase.proc) = who := by
    rcases who with - | p
    · rw [h.phase rfl]
      rfl
    · rfl
  simp only [wakeOne, wp_bind, wp_issue, spec, hme]
  split
  · rename_i hne
    simp only [wp_bind, wp_issue, spec]
    refine ⟨h.held p, fun k a hag hgain => of_held mem_cons_self ?_⟩
    obtain ⟨hset, -⟩ := hgain
    rw [Aux.lock_proc]
    generalize ha' : (if Lock.wait ∈ (m.g.setHeld (.proc p :: m.g.held)).held ∧ k.state p ≠ .zombie
      then a.setNz p else a) = a'
    replace ha' : a' = a ∨ a' = a.setNz p := by
      rw [← ha']
      split
      · exact .inr rfl
      · exact .inl rfl
    -- what is left when the process is not asleep on the channel any more
    have hend : ∀ k', Settled k' p → ¬ (k'.state p = .sleeping ∧ k'.chan p = ch) →
        (∀ l ∈ m.g.held, SameStore k k' l) → Mine who k k' →
        Gives who ⟨m.g.setHeld (.proc p :: m.g.held), k', a'⟩ (.proc p) ∧
        Later who m ⟨(m.g.setHeld (.proc p :: m.g.held)).unlock who (.proc p), k',
          a'.unlock (.proc p :: m.g.held) k' (.proc p)⟩ ∧
        (who ≠ some p → ∀ c, ch = some c → lockOf c ∈ m.g.held →
          (a'.unlock (.proc p :: m.g.held) k' (.proc p)).passed c p = true) := by
      intro k' hset' hnot hk hmine
      refine ⟨⟨hset', fun hc => absurd hc hne, h.phase, ?_, h.blames p⟩, ?_, ?_⟩
      · show m.g.wakes ≠ some p
        rw [h.wakes]
        rintro ⟨⟩
      · rw [unlock_cons fun q hq => h.held q]
        exact later_visit hag hk hmine ha'
      · rintro - c rfl hc
        have hpass : p = p ∧ lockOf c ∈ Lock.proc p :: m.g.held ∧
            ¬ (k'.state p = .sleeping ∧ k'.chan p = some c) := ⟨rfl, mem_cons_of_mem _ hc, hnot⟩
        exact if_pos hpass
    split
    · rename_i hst
      simp only [wp_bind, wp_issue, spec]
      refine of_held mem_cons_self ?_
      split
      · -- it sleeps on the channel
        rename_i hch
        refine ⟨mem_cons_self, _, _, .wake hst (.inl h.wakes), fun _ => ⟨mem_cons_self, ?_⟩,
          fun hrun => absurd (hst.symm.trans hrun) (by rintro ⟨⟩)⟩
        have hg : (m.g.setHeld (.proc p :: m.g.held)).setWakes none = m.g.setHeld (.proc p :: m.g.held) := by
          ext <;> simp [h.wakes]
        rw [hg]
        apply hend _ (hset.wake hst)
        · simp
        · intro l hl
          refine .except (fun hc => h.held p (hc ▸ hl)) (fun q hq => ?_) rfl rfl
          exact ⟨update_of_ne hq .., rfl, rfl, rfl, rfl, rfl⟩
        · exact .of_log rfl
      · rename_i hch
        exact ⟨mem_cons_self, hend k hset (fun hc => hch hc.2) (fun l _ => .refl k l) (.refl who k)⟩
    · rename_i hst
      exact ⟨mem_cons_self, hend k hset (fun hc => hst hc.1) (fun l _ => .refl k l) (.refl who k)⟩
  · rename_i heq
    exact ⟨.refl m, fun hne => absurd hne (by simpa using heq)⟩

theorem each_wakeOne (ch : Option (Chan n)) (ps : List (Fin n)) (h : WakeOk who m.g) :
    (each (wakeOne ch) ps).wp (spec strict who) m fun _ m' => Later who m m' ∧
      ∀ p ∈ ps, who ≠ some p → ∀ c, ch = some c → lockOf c ∈ m.g.held → m'.a.passed c p = true := by
  induction ps generalizing m with
  | nil => exact ⟨.refl m, fun p hp => absurd hp not_mem_nil⟩
  | cons p ps ih =>
    rw [each, wp_bind]
    apply wp_imp (wakeOne_spec ch p h)
    rintro - m₁ ⟨hl, hp⟩
    apply wp_imp (ih (hl.g ▸ h))
    rintro - m₂ ⟨hl', hps⟩
    refine ⟨hl.trans hl', fun q hq hne c hc hlock => ?_⟩
    have hlock' : lockOf c ∈ m₁.g.held := hl.g ▸ hlock
    rcases mem_cons.mp hq with rfl | hq
    · exact hl'.passed c q hlock' (hp hne c hc hlock)
    · exact hps q hq hne c hc hlock'

/-- **After `wakeup` no other process is asleep on the channel.** -/
theorem wakeup_spec (ch : Option (Chan n)) (h : WakeOk who m.g) :
    (wakeup ch).wp (spec strict who) m fun _ m' => Later who m m' ∧
      ∀ p, who ≠ some p → ∀ c, ch = some c → lockOf c ∈ m.g.held → m'.a.passed c p = true := by
  apply wp_imp (each_wakeOne ch (List.finRange n) h)
  rintro - m' ⟨hl, hp⟩
  exact ⟨hl, fun p => hp p (mem_finRange p)⟩

end Wakeup

/-! ### Switching -/

section Switch

variable {strict : Prop} {who : Option (Fin n)} {m : Know n} {p : Fin n} [NeZero n] {Q : Unit → Know n → Prop}

theorem curproc_spec {Q : Fin n → Know n → Prop} (h : Q p m) : (curproc (n := n)).wp (spec strict (some p)) m Q := by
  exact h

/-- `sched` comes back when the process is RUNNING again. -/
theorem sched_spec (hph : m.g.phase = .leave) (hheld : m.g.held = [.proc p])
    (hwakes : m.g.wakes = none) (hst : m.k.state p ≠ .running) (hset : Settled m.k p)
    (h : ∀ k a, Mine (some p) m.k k → k.state p = .running → Settled k p →
      Q () ⟨m.g.setPhase .run, k, a⟩) :
    (sched (n := n)).wp (spec strict (some p)) m Q := by
  rw [sched, wp_bind]
  apply curproc_spec
  have hmem : Lock.proc p ∈ m.g.held := by simp [hheld]
  have hnw : Lock.wait ∉ m.g.held := by simp [hheld]
  simp only [wp_bind, wp_issue, spec]
  rw [if_pos (decide_eq_true hmem)]
  simp only [wp_bind, wp_issue, spec]
  rw [if_neg (by simp [hheld])]
  simp only [wp_bind, wp_issue, spec]
  refine of_held hmem ?_
  rw [if_neg hst]
  exact ⟨p, rfl, hph, hheld, hwakes, hset, h⟩

/-- `yield` comes back to where it was. -/
theorem yield_spec (hs : Steady (some p) m.g) (hheld : m.g.held = [])
    (h : ∀ k a, Mine (some p) m.k k → Q () ⟨m.g, k, a⟩) :
    (yield (n := n)).wp (spec strict (some p)) m Q := by
  rw [yield, wp_bind]
  apply curproc_spec
  simp only [wp_bind, wp_issue, spec]
  rw [hheld]
  refine ⟨not_mem_nil, fun k a hag hgain => ⟨mem_cons_self, _, _, .yield rfl hs.phase hs.drowsy,
    fun hne => absurd (hgain.2.1 rfl) hne, fun _ b => ?_⟩⟩
  obtain ⟨hset, hrun, -⟩ := hgain
  rw [Settled, hrun rfl] at hset
  apply sched_spec
  · rfl
  · rfl
  · exact hs.wakes
  · simp
  · simpa [Settled] using hset
  · intro k' a' hmine hrun' hset'
    have hg : ((((m.g.setHeld [.proc p]).setPhase .leave).setPhase .run)) = m.g.setHeld (.proc p :: m.g.held) := by
      rw [hheld]
      ext <;> simp [hs.phase]
    refine ⟨mem_cons_self, ⟨hset', fun _ => ⟨rfl, hs.drowsy⟩, by rintro ⟨⟩, by simp [hs.wakes], fun _ => rfl⟩, ?_⟩
    rw [hg, unlock_cons (by simp [hheld])]
    have hk : Mine (some p) k ((k.setKilled p b).setState p .runnable) := .of_log rfl
    exact h k' _ (hag.mine.trans (hk.trans hmine))

/-- **`sleep` returns with the lock held.**  When it releases the lock it has its own, and what the
lock protects has to be in order for a process that goes to sleep. -/
theorem sleep_spec {ch : Chan n} {lk : Lock n} (hlk : ∀ q, lk ≠ .proc q)
    (hheld : m.g.held = [lk]) (hs : Steady (some p) m.g) (hok : SleepOk (m.g.setDrowsy (some lk)) p ch)
    (hgive : ∀ k a, Agree (some p) [lk] m.k k m.a a →
      Gives (some p) ⟨m.g.setHeld [.proc p, lk], k, a⟩ lk)
    (h : ∀ (k : Store n) (a : Aux n), Mine (some p) m.k k →
      Q () ⟨m.g.setTested false, k, a.lock k lk⟩) :
    (sleep ch lk).wp (spec strict (some p)) m Q := by
  rw [sleep, wp_bind]
  apply curproc_spec
  simp only [wp_bind, wp_issue, spec]
  rw [hheld]
  refine ⟨by simp [(hlk p).symm], fun k a hag hgain => ?_⟩
  obtain ⟨hset, hrun, -⟩ := hgain
  have hst : k.state p = .running := hrun rfl
  have herase : [Lock.proc p, lk].erase lk = [.proc p] := by
    rw [erase_cons_tail (by simpa using (hlk p).symm), erase_cons_head]
  -- the lock is released, and the process is as good as asleep
  have hunlock : (m.g.setHeld [.proc p, lk]).unlock (some p) lk
      = (m.g.setHeld [.proc p]).setDrowsy (some lk) := by
    have hc : Commits (some p) (m.g.setHeld [.proc p, lk]) ∧ (some p).map Lock.proc ≠ some lk :=
      ⟨⟨p, rfl, mem_cons_self, hs.phase⟩, fun hc => hlk p (Option.some.inj hc).symm⟩
    rw [Priv.unlock]
    simp only [if_pos hc, Priv.setHeld_held, herase]
    ext <;> simp
  refine ⟨by simp, hgive k a hag, ?_⟩
  rw [hunlock]
  refine ⟨by simp, by simp [hst], by simp, _, _, .sleep ch rfl hs.phase (by simp) ⟨hok.drowsy, hok.tested, hok.self⟩,
    fun hne => absurd hst hne, fun _ b => ?_⟩
  · apply sched_spec
    · rfl
    · rfl
    · exact hs.wakes
    · simp
    · rw [Settled, hst] at hset
      simpa [Settled] using hset
    · intro k' a' hmine hrun' hset'
      have hset'' : Settled (k'.setChan p none) p := hset'
      have hk : Mine (some p) k (((k.setChan p (some ch)).setKilled p b).setState p .sleeping) := .of_log rfl
      have hk' : Mine (some p) k' (k'.setChan p none) := .of_log rfl
      have hback : ((((((m.g.setHeld [.proc p]).setDrowsy (some lk)).setPhase .leave).setDrowsy none).setTested
          false).setPhase .run).unlock (some p) (.proc p) = (m.g.setTested false).setHeld [] := by
        rw [← unlock_cons (g := (m.g.setTested false).setHeld []) (by simp)]
        congr 1
        ext <;> simp [hs.phase, hs.drowsy]
      -- the lock is taken again
      have hlast : ∀ g a, g = (m.g.setTested false).setHeld [] → lk ∉ g.held ∧
          ∀ k₁ a₁, Agree (some p) g.held (k'.setChan p none) k₁ a a₁ → Gains strict (some p) g k₁ lk →
            Q () ⟨g.setHeld (lk :: g.held), k₁, a₁.lock k₁ lk⟩ := by
        rintro g a rfl
        refine ⟨not_mem_nil, fun k₁ a₁ hag₁ _ => ?_⟩
        have hg : ((m.g.setTested false).setHeld []).setHeld [lk] = m.g.setTested false := by
          ext <;> simp [hheld]
        show Q () ⟨((m.g.setTested false).setHeld []).setHeld [lk], _, _⟩
        rw [hg]
        exact h k₁ a₁ (hag.mine.trans (hk.trans (hmine.trans (hk'.trans hag₁.mine))))
      exact ⟨by simp, by simp [hrun'], by simp, ⟨hset'', fun _ => ⟨rfl, rfl⟩, nofun, by simp [hs.wakes],
        fun _ => rfl⟩, hlast _ _ hback⟩

/-- A scheduler is back where it was after it has looked at a process, or run it. -/
theorem schedOne_spec (p : Fin n) (h : Free none m.g) :
    (schedOne p).wp (spec strict none) m fun _ m' => m'.g = m.g := by
  have hidle : m.g.phase = .idle := h.phase
  have hback : (m.g.setHeld [.proc p]).unlock none (.proc p) = m.g := unlock_single h.held
  have hgives : ∀ k a, Settled k p → Gives none ⟨m.g.setHeld [.proc p], k, a⟩ (.proc p) := fun k a hset =>
    ⟨hset, by rintro ⟨⟩, fun _ => hidle, by simp [h.wakes], by simp [h.blames]⟩
  simp only [schedOne, wp_bind, wp_issue, spec]
  rw [h.held]
  refine ⟨not_mem_nil, fun k a hag hgain => of_held mem_cons_self ?_⟩
  obtain ⟨hset, -⟩ := hgain
  split
  · rename_i hst
    simp only [wp_bind, wp_issue, spec]
    have hset' : Settled (k.setState p .running) p := by
      rw [Settled, hst] at hset
      simpa [Settled] using hset
    refine ⟨mem_cons_self, _, _, .pick rfl hidle hst, fun _ => ⟨trivial, rfl, trivial, rfl, rfl, h.wakes,
      h.blames, hset', ?_⟩, fun hrun => absurd (hst.symm.trans hrun) (by rintro ⟨⟩)⟩
    intro k' a' hst' hset''
    have hg : ((((m.g.setHeld [.proc p]).setPhase (.picked p)).setPhase (.go p)).setPhase (.back p)).setPhase
        .idle = m.g.setHeld [.proc p] := by
      ext <;> simp [hidle]
    have hlast : ∀ g a, g = m.g.setHeld [.proc p] → .proc p ∈ g.held ∧ Gives none ⟨g, k', a⟩ (.proc p) ∧
        g.unlock none (.proc p) = m.g := by
      rintro g a rfl
      exact ⟨mem_cons_self, hgives k' a hset'', hback⟩
    exact ⟨trivial, ⟨p, rfl⟩, hlast _ _ hg⟩
  · exact ⟨mem_cons_self, hgives k _ hset, hback⟩

theorem scheduler_good (h : Free none m.g) : Good strict none scheduler m := by
  have hloop : ∀ ps m, Free none m.g →
      (each schedOne ps).wp (spec strict none) m fun _ (m' : Know n) => m'.g = m.g := by
    intro ps
    induction ps with
    | nil => exact fun m _ => rfl
    | cons p ps ih =>
      intro m h
      rw [each, wp_bind]
      apply wp_imp (schedOne_spec p h)
      intro _ m₁ hg
      apply wp_imp (ih m₁ (hg ▸ h))
      exact fun _ m₂ hg₂ => hg₂.trans hg
  rw [Good, scheduler, wp_bind]
  apply wp_imp (hloop _ m h)
  intro _ m' hg
  exact ⟨hg ▸ h.toCalm, rfl, hg ▸ h.held⟩

/-- A process that runs for the first time. -/
theorem forkret_good (hset : Settled m.k p) (hg : m.g = Priv.fresh.setHeld [.proc p]) : Good strict (some p) forkret m := by
  rw [Good, forkret, wp_bind]
  apply curproc_spec
  have hback : (Priv.fresh.setHeld [.proc p]).unlock (some p) (.proc p) = Priv.fresh :=
    unlock_single rfl
  refine ⟨by simp [hg], ⟨hset, fun _ => ?_, by rintro ⟨⟩, ?_, ?_⟩, ?_⟩
  · rw [hg]
    exact ⟨rfl, rfl⟩
  · rw [hg]
    rintro ⟨⟩
  · rw [hg]
    rintro ⟨⟩
  · rw [hg, hback]
    exact ⟨⟨rfl, rfl, rfl, rfl, rfl, rfl, rfl, rfl⟩, by rintro ⟨⟩, rfl⟩

end Switch

/-! ### fork -/

section Fork

variable {strict : Prop} {m : Know n} {p q : Fin n} [NeZero n]

variable {who : Option (Fin n)} {k : Store n}

omit [NeZero n] in
theorem Agree.later {a : Aux n} (h : Agree who m.g.held m.k k m.a a) : Later who m ⟨m.g, k, a⟩ :=
  ⟨rfl, h.store, h.mine, fun hw _ hq => (h.aux _ hw).nz rfl ▸ hq,
    fun ch _ hl hq => (h.aux _ hl).passed ch rfl ▸ hq, fun hw => ((h.aux _ hw).dirty rfl).symm,
    fun hw => ((h.aux _ hw).freeing rfl).symm⟩

theorem allocpid_spec {Q : Int32 → Know n → Prop} (hheld : .pid ∉ m.g.held) (hown : .proc p ∉ m.g.held)
    (h : ∀ pid m', Later (some p) m m' → Q pid m') :
    (allocpid (n := n)).wp (spec strict (some p)) m Q := by
  refine ⟨hheld, fun k a hag _ pid => ⟨mem_cons_self, trivial, ?_⟩⟩
  rw [Aux.lock_pid, unlock_cons fun q hq => by rwa [← Option.some.inj hq]]
  exact h pid _ hag.later

/-- The slot is given back when there is no memory. -/
theorem abort_spec {Q : Unit → Know n → Prop} (hheld : m.g.held = [.proc q]) (hqp : q ≠ p)
    (hchild : m.g.child = some q) (hlinked : m.g.linked = false) (hwakes : m.g.wakes = none)
    (hblames : m.g.blames = none) (hst : m.k.state q = .used)
    (hlife : ∃ pid, life q m.k.log = some (.live pid))
    (h : ∀ k a, Mine (some p) m.k k → Q () ⟨(m.g.setChild none false false).setHeld [], k, a⟩) :
    (abort q).wp (spec strict (some p)) m Q := by
  have hmem : Lock.proc q ∈ m.g.held := by simp [hheld]
  refine ⟨_, .aborted q hmem hchild hlife, hmem, fun hc => hqp (Option.some.inj hc).symm, .inl hst, hmem, by simp [hst], _, _,
    .abort hchild hlinked, hmem, by simp [hst], hmem, by simp [hst], hmem, hmem, _, _,
    .abort (by simp [hst]) hchild hlinked (by simp) hblames, fun _ => ⟨hmem, ⟨?_, ?_, by rintro ⟨⟩, ?_, ?_⟩, ?_⟩, by simp [hst]⟩
  · obtain ⟨pid, hl⟩ := hlife
    simp [Settled, life, hl]
  · exact fun hc => absurd (Option.some.inj hc).symm hqp
  · simp [hwakes]
  · simp [hblames]
  · have hback : (m.g.setChild none false false).unlock (some p) (.proc q)
        = (m.g.setChild none false false).setHeld [] := by
      rw [← unlock_cons (g := (m.g.setChild none false false).setHeld []) (by simp)]
      congr 1
      ext <;> simp [hheld]
    rw [hback]
    apply h
    exact ⟨fun _ _ => rfl, fun _ _ => rfl, fun _ _ => rfl⟩

/-- What `allocproc` has when it succeeds. -/
structure Allocated (p : Fin n) (m m' : Know n) (q : Fin n) : Prop where
  g : m'.g = (m.g.setChild (some q) true false).setHeld [.proc q]
  ne : q ≠ p
  state : m'.k.state q = .used
  settled : Settled m'.k q
  mine : Mine (some p) m.k m'.k

variable {Q : Option (Fin n) → Know n → Prop}

theorem found_spec (hheld : m.g.held = [.proc q]) (hqp : q ≠ p)
    (h : Calm (some p) m.g) (hst : m.k.state q = .unused) (hset : Settled m.k q)
    (hkill : strict → m.k.killed q = false)
    (hsome : ∀ m', Allocated p m m' q → Q (some q) m')
    (hnone : ∀ k a, Mine (some p) m.k k → Q none ⟨m.g.setHeld [], k, a⟩) :
    (found q).wp (spec strict (some p)) m Q := by
  have hmem : Lock.proc q ∈ m.g.held := by simp [hheld]
  rw [found, wp_bind]
  apply allocpid_spec (by simp [hheld]) (by simp [hheld, hqp.symm])
  intro pid m₁ hl
  obtain ⟨hst₁, hpid₁, -, -, hlife₁, hkill₁⟩ := hl.store _ hmem
  have hunused : m₁.k.state q = .unused := hst₁ ▸ hst
  have hmem₁ : Lock.proc q ∈ m₁.g.held := hl.g ▸ hmem
  have hheld₁ : m₁.g.held = [.proc q] := hl.g ▸ hheld
  have hfree : life q m₁.k.log = some .free := by
    rw [Settled, hst] at hset
    rw [← hlife₁]
    exact hset.1
  have hlive : life q ((m₁.k.setPid q pid).note (.created q pid)).log = some (.live pid) := by
    simp [life, hfree]
  have hmine : Mine (some p) m.k (((m₁.k.setPid q pid).note (.created q pid)).setState q .used) :=
    hl.mine.trans ⟨fun _ _ => rfl, fun _ _ => rfl, fun _ _ => rfl⟩
  -- what is left if there is no memory
  have habort : (do abort q; return none : KProg n (Option (Fin n))).wp (spec strict (some p))
      ⟨m₁.g.setChild (some q) false false, ((m₁.k.setPid q pid).note (.created q pid)).setState q .used, m₁.a⟩
      Q := by
    apply abort_spec
    · exact hheld₁
    · exact hqp
    · rfl
    · rfl
    · exact hl.g ▸ h.wakes
    · exact hl.g ▸ h.blames
    · simp
    · exact ⟨pid, hlive⟩
    · intro k a hm
      have hg : ((m₁.g.setChild (some q) false false).setChild none false false).setHeld [] = m.g.setHeld [] := by
        rw [hl.g]
        ext <;> simp [h.child, h.ctx, h.linked]
      rw [hg]
      exact hnone k a (hmine.trans hm)
  simp only [wp_bind, wp_issue, spec]
  refine ⟨hmem₁, by simp [hunused], _, .created q pid hmem₁ hunused hfree ?_, hmem₁, _, _,
    .alloc hunused ⟨pid, hlive⟩ (by rintro ⟨⟩) ?_ (hl.g ▸ h.child), fun _ ok => ?_, by simp [hunused]⟩
  · intro hs
    rw [Store.setPid_killed, ← hkill₁ (by simp [hst])]
    exact hkill hs
  · exact fun hc => hqp (Option.some.inj hc).symm
  · split
    · simp only [wp_bind, wp_issue, spec]
      intro ok'
      split
      · refine ⟨hmem₁, rfl, ?_⟩
        apply hsome
        refine ⟨?_, hqp, by simp, ?_, hmine⟩
        · rw [hl.g]
          ext <;> simp [hheld]
        · simpa [Settled] using hlive
      · exact habort
    · exact habort

theorem allocproc_spec (ps : List (Fin n)) (h : Free (some p) m.g) (hsome : ∀ q m', Allocated p m m' q → Q (some q) m')
    (hnone : ∀ k a, Mine (some p) m.k k → Q none ⟨m.g, k, a⟩) :
    (allocproc ps).wp (spec strict (some p)) m Q := by
  induction ps generalizing m with
  | nil => exact hnone m.k m.a (.refl _ _)
  | cons q ps ih =>
    simp only [allocproc, wp_bind, wp_issue, spec]
    rw [h.held]
    refine ⟨not_mem_nil, fun k a hag hgain => of_held mem_cons_self ?_⟩
    obtain ⟨hset, hrun, -, hkill⟩ := hgain
    have hcalm : Calm (some p) (m.g.setHeld [.proc q]) := h.setHeld _
    split
    · rename_i hst
      have hqp : q ≠ p := by
        rintro rfl
        rw [hrun rfl] at hst
        cases hst
      apply found_spec rfl hqp hcalm hst hset fun hs => hkill hs hst
      · intro m' hm'
        exact hsome q m' ⟨hm'.g, hm'.ne, hm'.state, hm'.settled, hag.mine.trans hm'.mine⟩
      intro k' a' hm'
      have hg : (m.g.setHeld [.proc q]).setHeld [] = m.g := by
        ext <;> simp [h.held]
      rw [hg]
      exact hnone k' a' (hag.mine.trans hm')
    · refine ⟨mem_cons_self, h.gives _ hset, ?_⟩
      rw [unlock_single h.held]
      apply ih
      · exact h
      · exact fun q' m' hm' => hsome q' m' ⟨hm'.g, hm'.ne, hm'.state, hm'.settled, hag.mine.trans hm'.mine⟩
      · exact fun k' a' hm' => hnone k' a' (hag.mine.trans hm')

omit [NeZero n] in
/-- The process is back in `usertrap`, and was not in `wait`. -/
theorem sysret_done {v : Int32} (h : Free (some p) m.g) (hnw : NotWait (some p) m.k) :
    Calm (some p) m.g ∧ Done (some p) m (.sysret v) :=
  ⟨h.toCalm, Option.some_ne_none p, h.held, fun q addr hq hc => absurd hc (hnw q addr hq)⟩

omit [NeZero n] in
theorem NotWait.of_mine {k' : Store n} (h : NotWait who k) (hm : Mine who k k') :
    NotWait who k' := fun p addr hp => hm.calling p hp ▸ h p addr hp

/-- **`fork` keeps to the rules.** -/
theorem fork_good (h : Free (some p) m.g) (hnw : NotWait (some p) m.k) : Good strict (some p) fork m := by
  rw [Good, fork, wp_bind]
  apply curproc_spec
  rw [wp_bind]
  apply allocproc_spec _ h
  · rintro np ⟨g₁, k₁, a₁⟩ ⟨hg, hne, hst, hset, hmine⟩
    obtain rfl : g₁ = (m.g.setChild (some np) true false).setHeld [.proc np] := hg
    simp only [wp_bind, wp_issue, spec]
    intro ok
    split
    · simp only [wp_bind, wp_issue, spec]
      refine of_held mem_cons_self ?_
      have hg₂ : (m.g.setChild (some np) true false).held = [] := h.held
      refine ⟨mem_cons_self, ⟨hset, ?_, by rintro ⟨⟩, by simp [h.wakes], by simp [h.blames]⟩, ?_⟩
      · exact fun hc => absurd (Option.some.inj hc).symm hne
      rw [unlock_single hg₂]
      simp only [hg₂]
      -- the parent is set under `wait_lock`
      refine ⟨not_mem_nil, fun k₂ a₂ hag₂ _ => ⟨_, _, .link p rfl h.phase mem_cons_self rfl,
        mem_cons_self, ⟨?_, rfl, ?_⟩, ?_⟩⟩
      · intro hc
        simp [Aux.lock] at hc
      · rintro ⟨q, hq, hmem, -⟩
        simp at hmem
      have hback₂ : (((m.g.setChild (some np) true false).setHeld [.wait]).setChild (some np)
          ((m.g.setChild (some np) true false).setHeld [.wait]).ctx true).unlock (some p) .wait
          = m.g.setChild (some np) true true := unlock_single (g := m.g.setChild (some np) true true) h.held
      have hg₃ : (m.g.setChild (some np) true true).held = [] := h.held
      rw [hback₂, hg₃]
      -- and then the child may run
      refine ⟨not_mem_nil, fun k₃ a₃ hag₃ hgain => ⟨mem_cons_self, _, _, .birth rfl rfl rfl,
        fun _ => ⟨mem_cons_self, ⟨?_, ?_, by rintro ⟨⟩, by simp [h.wakes], by simp [h.blames]⟩, ?_⟩,
        by simp [hgain.2.2.1 rfl]⟩⟩
      · obtain ⟨hset₃, -, hused, -⟩ := hgain
        rw [Settled, hused rfl] at hset₃
        simpa [Settled] using hset₃
      · exact fun hc => absurd (Option.some.inj hc).symm hne
      · have hback₃ : (((m.g.setChild (some np) true true).setHeld [.proc np]).setChild none false false).unlock
            (some p) (.proc np) = m.g := by
          have hg₄ : ((m.g.setChild (some np) true true).setHeld [.proc np]).setChild none false false
              = m.g.setHeld [.proc np] := by
            ext <;> simp [h.child, h.ctx, h.linked]
          rw [hg₄, unlock_single h.held]
        rw [hback₃]
        have hk₂ : Mine (some p) k₂ (k₂.setParent np (some p)) := .of_log rfl
        have hk₃ : Mine (some p) k₃ (k₃.setState np .runnable) := .of_log rfl
        exact sysret_done h
          (hnw.of_mine (hmine.trans (hag₂.mine.trans (hk₂.trans (hag₃.mine.trans hk₃)))))
    · apply abort_spec
      · rfl
      · exact hne
      · rfl
      · rfl
      · exact h.wakes
      · exact h.blames
      · exact hst
      · rw [Settled, (hst : k₁.state np = .used)] at hset
        exact ⟨_, hset⟩
      · intro k a hm
        have hg' : (((m.g.setChild (some np) true false).setHeld [.proc np]).setChild none false false).setHeld []
            = m.g := by
          ext <;> simp [h.child, h.ctx, h.linked, h.held]
        rw [hg']
        exact sysret_done h (hnw.of_mine (hmine.trans hm))
  · exact fun k a hm => sysret_done h (hnw.of_mine hm)

end Fork

/-! ### kill -/

section Kill

variable {strict : Prop} {m : Know n} {p : Fin n} [NeZero n]

variable {k : Store n} {q : Fin n}

omit [NeZero n] in
theorem Settled.pid_ne (h : Settled k q) (hpid : k.pid q ≠ 0) : k.state q ≠ .unused := by
  intro hst
  rw [Settled, hst] at h
  exact hpid h.2

/-- What `kill` leaves to do when it has found process `q`. -/
theorem kill_release {g : Priv n} {a : Aux n} (h : Free (some p) m.g) (hnw : NotWait (some p) k) (hset : Settled k q)
    (hg : g = m.g.setHeld [.proc q]) :
    (do issue (.release (.proc q)); return .sysret 0 : KProg n (Next n)).wp (spec strict (some p)) ⟨g, k, a⟩
      fun next m' => Calm (some p) m'.g ∧ Done (some p) m' next := by
  subst hg
  refine ⟨mem_cons_self, h.gives _ hset, ?_⟩
  rw [unlock_single h.held]
  exact sysret_done h hnw

/-- **`kill` keeps to the rules.**  It does not set `killed` in an UNUSED slot, unless the pid is 0. -/
theorem kill_good {pid : Int32} (hpid : strict → pid ≠ 0) (ps : List (Fin n)) (h : Free (some p) m.g) (hnw : NotWait (some p) m.k) : Good strict (some p) (kill pid ps) m := by
  induction ps generalizing m with
  | nil => exact sysret_done h hnw
  | cons q ps ih =>
    simp only [Good, kill, wp_bind, wp_issue, spec]
    rw [h.held]
    refine ⟨not_mem_nil, fun k a hag hgain => of_held mem_cons_self ?_⟩
    obtain ⟨hset, -⟩ := hgain
    have hnw' : NotWait (some p) k := hnw.of_mine hag.mine
    split
    · rename_i hv
      simp only [wp_bind, wp_issue, spec]
      refine ⟨_, .killed q pid mem_cons_self (fun _ => h.phase) fun hs => ⟨?_, hset, hv⟩, rfl,
        .inl ⟨mem_cons_self, h.wakes, ?_⟩⟩
      · exact hset.pid_ne fun h0 => hpid hs (hv ▸ h0)
      · have hset' : Settled ((k.note (.killed q pid)).setKilled q true) q := hset
        have hnw'' : NotWait (some p) ((k.note (.killed q pid)).setKilled q true) := hnw'
        by_cases hst : k.state q = .sleeping
        · -- wake process from sleep()
          have hst' : ((k.note (.killed q pid)).setKilled q true).state q = .sleeping := hst
          rw [if_pos (by exact hst)]
          refine of_held mem_cons_self ?_
          rw [if_pos hst']
          refine ⟨mem_cons_self, _, _, .wake hst' (.inr rfl), fun _ => ?_,
            fun hrun => absurd (hst.symm.trans hrun) (by rintro ⟨⟩)⟩
          have hnw₁ : NotWait (some p) (((k.note (.killed q pid)).setKilled q true).setState q .runnable) := hnw'
          apply kill_release h hnw₁ (hset'.wake hst')
          ext <;> simp [h.wakes, h.blames]
        · rw [if_neg (by exact hst)]
          refine of_held mem_cons_self ?_
          rw [if_neg (by exact hst)]
          apply kill_release h hnw'' hset'
          ext <;> simp [h.wakes, h.blames]
    · refine ⟨mem_cons_self, h.gives _ hset, ?_⟩
      rw [unlock_single h.held]
      exact ih h hnw'

end Kill

/-! ### exit -/

section Exit

variable {strict : Prop} {m : Know n} {p : Fin n} [NeZero n]

/-- Some children of `p` have been given to init, and init has been woken up. -/
structure Orphaned (p : Fin n) (m m' : Know n) : Prop where
  g : m'.g = m.g
  mine : Mine (some p) m.k m'.k
  kids : ∀ r, m'.k.parent r = some p → m.k.parent r = some p
  dirty : (m.a.dirty = true → m.a.passed (.proc initproc) initproc = true) →
    m'.a.dirty = true → m'.a.passed (.proc initproc) initproc = true
  freeing : m'.a.freeing = m.a.freeing

theorem Orphaned.refl (p : Fin n) (m : Know n) : Orphaned p m m := ⟨rfl, .refl _ _, fun _ h => h, fun h => h, rfl⟩

theorem Orphaned.trans {m' m'' : Know n} (h : Orphaned p m m') (h' : Orphaned p m' m'') : Orphaned p m m'' :=
  ⟨h'.g.trans h.g, h.mine.trans h'.mine, fun r hr => h.kids r (h'.kids r hr), fun hd => h'.dirty (h.dirty hd),
    h'.freeing.trans h.freeing⟩

theorem reparentOne_spec (pp : Fin n) (h : WakeOk (some p) m.g) (hwait : .wait ∈ m.g.held) (hp : p ≠ initproc) :
    (reparentOne p pp).wp (spec strict (some p)) m fun _ m' =>
      Orphaned p m m' ∧ m'.k.parent pp ≠ some p := by
  simp only [reparentOne, wp_bind, wp_issue, spec]
  refine of_held hwait ?_
  split
  · rename_i hpar
    refine ⟨_, _, .init hwait (by simp [hpar]), ?_⟩
    apply wp_imp (wakeup_spec
      (m := ⟨m.g, m.k.setParent pp (some initproc), m.a.setDirty true⟩) _ h)
    rintro - m' ⟨hl, hpass⟩
    have hparent : m'.k.parent = update m.k.parent pp (some initproc) := (hl.store _ hwait).symm
    have hmine : Mine (some p) m.k (m.k.setParent pp (some initproc)) := .of_log rfl
    refine ⟨⟨hl.g, hmine.trans hl.mine, fun r hr => ?_, fun _ _ => ?_, hl.freeing hwait⟩, ?_⟩
    · by_cases hrp : r = pp
      · exact hrp ▸ hpar
      · simpa [hparent, hrp] using hr
    · exact hpass initproc (fun hc => hp (Option.some.inj hc)) _ rfl hwait
    · simpa [hparent] using hp.symm
  · rename_i hpar
    exact ⟨.refl p m, hpar⟩

/-- **After `reparent` the process has no children.** -/
theorem reparent_spec (h : WakeOk (some p) m.g) (hwait : .wait ∈ m.g.held) (hp : p ≠ initproc) :
    (reparent p).wp (spec strict (some p)) m fun _ m' => Orphaned p m m' ∧ ∀ r, m'.k.parent r ≠ some p := by
  have hloop : ∀ ps m, WakeOk (some p) m.g → .wait ∈ m.g.held →
      (each (reparentOne p) ps).wp (spec strict (some p)) m fun _ (m' : Know n) =>
        Orphaned p m m' ∧ ∀ r ∈ ps, m'.k.parent r ≠ some p := by
    intro ps
    induction ps with
    | nil => exact fun m _ _ => ⟨.refl p m, fun r hr => absurd hr not_mem_nil⟩
    | cons pp ps ih =>
      intro m h hwait
      rw [each, wp_bind]
      apply wp_imp (reparentOne_spec pp h hwait hp)
      rintro - m₁ ⟨ho, hpp⟩
      apply wp_imp (ih m₁ (ho.g ▸ h) (ho.g ▸ hwait))
      rintro - m₂ ⟨ho', hps⟩
      refine ⟨ho.trans ho', fun r hr => ?_⟩
      rcases mem_cons.mp hr with rfl | hr
      · exact fun hc => hpp (ho'.kids r hc)
      · exact hps r hr
  apply wp_imp (hloop _ m h hwait)
  rintro - m' ⟨ho, hps⟩
  exact ⟨ho, fun r => hps r (mem_finRange r)⟩

/-- **`exit` keeps to the rules.**  When the process becomes a ZOMBIE it has no children, and its parent
is not asleep in `wait`. -/
theorem exit_good {status : Int32} (h : Free (some p) m.g) : Good strict (some p) (exit status) m := by
  rw [Good, exit, wp_bind]
  apply curproc_spec
  split
  · exact trivial
  rename_i hp
  simp only [wp_bind, wp_issue, spec]
  rw [h.held]
  refine ⟨not_mem_nil, fun k a hag _ => ?_⟩
  have hok : WakeOk (some p) (m.g.setHeld [.wait]) := (h.setHeld _).steady.wakeOk (by simp)
  apply wp_imp (reparent_spec hok mem_cons_self hp)
  rintro - ⟨g₁, k₁, a₁⟩ ⟨ho, hkids⟩
  obtain rfl : g₁ = m.g.setHeld [.wait] := ho.g
  refine of_held mem_cons_self ?_
  -- parent might be sleeping in wait()
  apply wp_imp (wakeup_spec _ hok)
  rintro - ⟨g₂, k₂, a₂⟩ ⟨hl, hpass⟩
  obtain rfl : g₂ = m.g.setHeld [.wait] := hl.g
  refine ⟨by simp, fun k₃ a₃ hag₃ hgain => ?_⟩
  obtain ⟨hset, hrun, -⟩ := hgain
  have hst : k₃.state p = .running := hrun rfl
  have hlive : life p k₃.log = some (.live (k₃.pid p)) := by
    rw [Settled, hst] at hset
    exact hset
  have hwait : Lock.wait ∈ (m.g.setHeld [.wait]).held := mem_cons_self
  have hparent : k₁.parent = k₃.parent := (hl.store _ hwait).trans (hag₃.store _ hwait)
  have hpass₃ : ∀ r, r ≠ p → k₁.parent p = some r → a₃.passed (.proc r) r = true := by
    intro r hr hpar
    rw [← (hag₃.aux _ hwait).passed (.proc r) rfl]
    exact hpass r (fun hc => hr (Option.some.inj hc).symm) (.proc r) (congrArg (Option.map Chan.proc) hpar) hwait
  have hdirty₃ : a₃.dirty = true → a₃.passed (.proc initproc) initproc = true := by
    intro hd
    rw [← (hag₃.aux _ hwait).dirty rfl, hl.dirty hwait] at hd
    rw [← (hag₃.aux _ hwait).passed (.proc initproc) rfl]
    apply hl.passed (.proc initproc) _ hwait
    exact ho.dirty (fun hc => by simp [Aux.lock] at hc) hd
  have hfree₃ : a₃.freeing = none := by
    rw [← (hag₃.aux _ hwait).freeing rfl, hl.freeing hwait, ho.freeing]
    rfl
  refine ⟨mem_cons_self, _, .exited p status rfl mem_cons_self ⟨_, hlive⟩, mem_cons_self, _, _,
    .exit rfl h.phase h.drowsy hp (by simp) h.child h.tested h.blames ?_ ?_, fun hne => absurd hst hne,
    fun _ b => ⟨by simp, ⟨hdirty₃, hfree₃, ?_⟩, ?_⟩⟩
  · exact fun r hr => hkids r (hparent ▸ hr)
  · intro r hr
    have hr₁ : k₁.parent p = some r := hparent ▸ hr
    refine hpass₃ r ?_ hr₁
    rintro rfl
    exact hkids r hr₁
  · rintro ⟨q, -, -, hphase⟩
    cases hphase
  · -- the process gives up wait_lock, and is still on its stack
    have hleave : ¬ Commits (some p) ((m.g.setHeld [.proc p, .wait]).setPhase .leave) := by
      rintro ⟨q, -, -, hphase⟩
      cases hphase
    erw [unlock_of_not hleave]
    apply sched_spec
    · rfl
    · simp
    · exact h.wakes
    · simp
    · simp [Settled, life, hlive]
    · exact fun _ _ _ _ _ => trivial

end Exit

/-! ### wait -/

section Wait

variable {strict : Prop} {m : Know n} {p : Fin n} {addr : UInt64} [NeZero n]

/-- The process is in the scan of `wait`. -/
structure Scanning (p : Fin n) (m : Know n) : Prop where
  calm : Calm (some p) m.g
  held : m.g.held = [.wait]
  dirty : m.a.dirty = false
  freeing : m.a.freeing = none
  result : result p m.k.log = none

variable {k : Store n} {a : Aux n}

omit [NeZero n] in
theorem Scanning.agree (h : Scanning p m) (hag : Agree (some p) [.wait] m.k k m.a a) : Scanning p ⟨m.g, k, a⟩ := by
  have haux := hag.aux _ mem_cons_self
  exact ⟨h.calm, h.held, haux.dirty rfl ▸ h.dirty, haux.freeing rfl ▸ h.freeing, hag.mine.result p rfl ▸ h.result⟩

variable {g : Priv n}

/-- `wait` returns. -/
theorem wait_release {v : Int32} (h : Calm (some p) g) (hheld : m.g = g.setHeld [.wait])
    (hg : g.held = []) (hdirty : m.a.dirty = false) (hfree : m.a.freeing = none)
    (hv : v = -1 ∧ result p m.k.log = none ∨ result p m.k.log = some v) :
    .wait ∈ m.g.held ∧ Gives (some p) m .wait ∧ Calm (some p) (m.g.unlock (some p) .wait) ∧
      ∀ a, Done (some p) ⟨m.g.unlock (some p) .wait, m.k, a⟩ (.sysret v) := by
  rw [hheld]
  refine ⟨mem_cons_self, ⟨fun hd => ?_, hfree, ?_⟩, ?_⟩
  · rw [hdirty] at hd
    cases hd
  · rintro ⟨q, -, hmem, -⟩
    rw [hheld] at hmem
    simp at hmem
  · rw [unlock_single hg]
    refine ⟨h, fun a => ⟨nofun, hg, ?_⟩⟩
    rintro _ - ⟨⟩ -
    exact hv

variable {np : Fin n}

/-- `freeproc` for a ZOMBIE. -/
theorem freeproc_zombie {Q : Unit → Know n → Prop} (hne : np ≠ p) (hnp : .proc np ∈ m.g.held)
    (hwait : .wait ∈ m.g.held) (hst : m.k.state np = .zombie) (hfree : m.a.freeing = none)
    (hblames : m.g.blames = none) (h : ∀ k, k.state np = .unused → k.pid np = 0 → k.log = m.k.log →
      Q () ⟨m.g, k, (m.a.setFreeing (some np)).setFreeing none⟩) :
    (freeproc np).wp (spec strict (some p)) m Q := by
  refine ⟨hnp, fun hc => hne (Option.some.inj hc).symm, .inr hst, hnp, by simp [hst], _, _,
    .reap hnp hwait hst hfree, hnp, by simp [hst], hnp, by simp [hst], hnp, hnp, _, _,
    .reap hst hwait rfl (by simp) (by simp) hblames, fun _ => ?_, by simp [hst]⟩
  apply h <;> simp

/-- **`wait` collects a ZOMBIE child**, and frees its slot. -/
theorem collect_good (h : Calm (some p) g) (hg : g.held = []) (hne : np ≠ p)
    (hheld : m.g = g.setHeld [.proc np, .wait]) (hpar : m.k.parent np = some p) (hst : m.k.state np = .zombie)
    (hset : Settled m.k np) (hdirty : m.a.dirty = false) (hfree : m.a.freeing = none)
    (hres : result p m.k.log = none) : Good strict (some p) (collect p addr np) m := by
  obtain ⟨g', k, a⟩ := m
  obtain rfl : g' = g.setHeld [.proc np, .wait] := hheld
  have hlife : life np k.log = some (.done (k.pid np) (k.xstate np)) := by
    rw [Settled, (hst : k.state np = .zombie)] at hset
    exact hset
  have hback : (g.setHeld [.proc np, .wait]).unlock (some p) (.proc np) = g.setHeld [.wait] :=
    unlock_cons (g := g.setHeld [.wait]) (by simp)
  -- the child is freed, and its pid returned
  have hok : ∀ k', k'.state = k.state → k'.pid = k.pid → k'.xstate = k.xstate → k'.parent = k.parent →
      life np k'.log = life np k.log → (addr ≠ 0 → lastStored p k'.log = some (addr, k.xstate np)) →
      (do issue (.note (.waited p addr np (k.pid np) (k.xstate np)))
          freeproc np
          issue (.release (.proc np))
          issue (.release .wait)
          return .sysret (k.pid np) : KProg n (Next n)).wp (spec strict (some p))
        ⟨g.setHeld [.proc np, .wait], k', a⟩ fun next m' => Calm (some p) m'.g ∧ Done (some p) m' next := by
    intro k' hstate hpid hxstate hparent hlife' hstored
    refine ⟨_, .waited p addr np _ _ rfl mem_cons_self (by simp) ?_ ?_ ?_ ?_ ?_ hstored, ?_⟩
    · exact hparent ▸ hpar
    · exact hstate ▸ hst
    · exact congrFun hpid np
    · exact congrFun hxstate np
    · exact hlife'.trans hlife
    · apply freeproc_zombie hne mem_cons_self (by simp)
      · exact hstate ▸ hst
      · exact hfree
      · exact h.blames
      · intro k₁ hst₁ hpid₁ hlog₁
        have hset₁ : Settled k₁ np := by
          rw [Settled, hst₁]
          exact ⟨by simp [hlog₁, life, hlife', hlife], hpid₁⟩
        refine ⟨mem_cons_self, h.gives _ hset₁, ?_⟩
        rw [hback]
        have hv : result p k₁.log = some (k.pid np) := by simp [hlog₁, result]
        obtain ⟨h₁, h₂, h₃, h₄⟩ := wait_release (m := ⟨g.setHeld [.wait], k₁,
          ((a.setFreeing (some np)).setFreeing none).unlock (g.setHeld [.proc np, .wait]).held k₁ (.proc np)⟩)
          h rfl hg hdirty rfl (.inr hv)
        exact ⟨h₁, h₂, h₃, h₄ _⟩
  refine of_held mem_cons_self (of_held mem_cons_self ?_)
  split
  · rename_i haddr
    refine ⟨?_, ?_⟩
    · -- copyout has failed, and the child stays a ZOMBIE
      refine ⟨mem_cons_self, h.gives _ hset, ?_⟩
      rw [hback]
      obtain ⟨h₁, h₂, h₃, h₄⟩ := wait_release (m := ⟨g.setHeld [.wait], k, a.unlock
        (g.setHeld [.proc np, .wait]).held k (.proc np)⟩) h rfl hg hdirty hfree (.inl ⟨rfl, hres⟩)
      exact ⟨h₁, h₂, h₃, h₄ _⟩
    · rintro _ ⟨⟩
      apply hok <;> first | rfl | simp [lastStored]
  · rename_i haddr
    exact hok k rfl rfl rfl rfl rfl fun hne => absurd hne haddr

omit [NeZero n] in
/-- A child that is not a ZOMBIE has been looked at. -/
theorem Scanning.visit {held : List (Lock n)} (h : Scanning p m) (hag : Agree (some p) [.wait] m.k k m.a a) :
    Scanning p ⟨m.g, k, (a.setNz np).pass held k np⟩ := by
  obtain ⟨h₁, h₂, h₃, h₄, h₅⟩ := h.agree hag
  exact ⟨h₁, h₂, h₃, h₄, h₅⟩

/-- **The scan of `wait`.**  When the process goes to sleep it has seen that no child is a ZOMBIE. -/
theorem waitScan_good (havekids : Bool) (ps : List (Fin n)) (h : Scanning p m)
    (hps : ∀ q, m.k.parent q = some p → q ∈ ps ∨ m.a.nz q = true) :
    Good strict (some p) (waitScan p addr havekids ps) m := by
  have hback : (m.g.setHeld []).setHeld [.wait] = m.g := by
    ext <;> simp [h.held]
  induction ps generalizing m havekids with
  | nil =>
    have hcalm : Calm (some p) (m.g.setHeld []) := h.calm.setHeld []
    have htested : m.g.setTested false = m.g := h.calm.untest false
    obtain ⟨h₁, h₂, h₃, h₄⟩ := wait_release hcalm hback.symm rfl h.dirty h.freeing
      (.inl ⟨rfl, h.result⟩)
    rw [Good, waitScan, wp_bind]
    cases havekids with
    | false => exact ⟨h₁, h₂, h₃, h₄ _⟩
    | true =>
      simp only [if_true, wp_issue, spec]
      refine ⟨trivial, h.calm.phase, ?_, ?_⟩
      · rw [htested]
        exact ⟨h₁, h₂, h₃, h₄ _⟩
      -- wait for a child to exit
      simp only [Bool.false_eq_true, if_false, wp_bind]
      apply sleep_spec
      · rintro _ ⟨⟩
      · exact h.held
      · exact h.calm.steady.setTested true
      · exact ⟨rfl, fun _ => rfl, fun r hr => (Chan.proc.inj hr).symm⟩
      · intro k a hag
        obtain ⟨-, -, hdirty, hfree, -⟩ := h.agree hag
        refine ⟨fun hd => ?_, hfree, ?_⟩
        · exact absurd (hdirty.symm.trans hd) (by rintro ⟨⟩)
        rintro - _ q ⟨⟩ hq
        have hparent : m.k.parent = k.parent := hag.store _ mem_cons_self
        rw [← (hag.aux _ mem_cons_self).nz rfl]
        exact (hps q (hparent ▸ hq)).resolve_left not_mem_nil
      · intro k a hm
        show Calm (some p) (m.g.setTested false) ∧ Done (some p) ⟨m.g.setTested false, _, _⟩ _
        rw [htested]
        exact ⟨h.calm, rfl, h.held, rfl, rfl, hm.result p rfl ▸ h.result⟩
  | cons np ps ih =>
    simp only [Good, waitScan, wp_bind, wp_issue, spec]
    refine of_held (by simp [h.held]) ?_
    split
    · rename_i hpar
      simp only [wp_bind, wp_issue, spec]
      rw [h.held]
      refine ⟨by simp, fun k a hag hgain => of_held mem_cons_self ?_⟩
      obtain ⟨hset, hrun, -⟩ := hgain
      obtain ⟨-, -, hdirty, hfree, hres⟩ := h.agree hag
      have hparent : m.k.parent = k.parent := hag.store _ mem_cons_self
      rw [Aux.lock_proc]
      split
      · rename_i hst
        rw [if_neg fun hc => hc.2 hst]
        have hne : np ≠ p := by
          rintro rfl
          rw [hrun rfl] at hst
          cases hst
        apply collect_good (h.calm.setHeld []) rfl hne rfl
        · exact hparent ▸ hpar
        · exact hst
        · exact hset
        · exact hdirty
        · exact hfree
        · exact hres
      · rename_i hst
        rw [if_pos ⟨by simp, hst⟩]
        refine ⟨mem_cons_self, h.calm.gives _ hset, ?_⟩
        have hunlock : (m.g.setHeld [.proc np, .wait]).unlock (some p) (.proc np) = m.g := by
          rw [← hback]
          exact unlock_cons (by simp)
        rw [hunlock]
        apply ih
        · exact h.visit hag
        · intro q hq
          show q ∈ ps ∨ update a.nz np true q = true
          by_cases hqn : q = np
          · exact .inr (by rw [hqn, update_self])
          · rw [update_of_ne hqn, ← (hag.aux _ mem_cons_self).nz rfl]
            exact (hps q (hparent ▸ hq)).imp_left fun hmem => (mem_cons.mp hmem).resolve_left hqn
        · exact hback
    · rename_i hpar
      apply ih
      · exact h
      · intro q hq
        rcases hps q hq with hmem | hnz
        · rcases mem_cons.mp hmem with rfl | hmem
          · exact absurd hq hpar
          · exact .inl hmem
        · exact .inr hnz
      · exact hback

/-- **`wait` keeps to the rules.** -/
theorem wait_good (h : Free (some p) m.g) (hres : result p m.k.log = none) : Good strict (some p) (wait addr) m := by
  rw [Good, wait, wp_bind]
  apply curproc_spec
  simp only [wp_bind, wp_issue, spec]
  rw [h.held]
  refine ⟨not_mem_nil, fun k a hag _ => ?_⟩
  exact ⟨h.setHeld _, rfl, rfl, rfl, rfl, hag.mine.result p rfl ▸ hres⟩

end Wait

/-! ### Pipes and the console -/

section Devices

variable {strict : Prop} {who : Option (Fin n)} {m : Know n} {p : Fin n} {l : Lock n} [NeZero n]

/-- A process that has one lock, of a pipe or of the console, and is not in `wait`. -/
structure Locked (p : Fin n) (l : Lock n) (m : Know n) : Prop where
  calm : Calm (some p) m.g
  held : m.g.held = [l]
  notWait : NotWait (some p) m.k

/-- The locks that come without a duty. -/
def Plain : Lock n → Prop
  | .pipe _ | .cons => True
  | _ => False

section

variable (h : Locked p l m)

include h

omit [NeZero n] in
theorem Locked.later {m' : Know n} (hl : Later (some p) m m') : Locked p l m' :=
  ⟨hl.g ▸ h.calm, hl.g ▸ h.held, h.notWait.of_mine hl.mine⟩

/-- The call returns. -/
theorem Locked.release {v : Int32} (hl : Plain l) :
    (do issue (.release l); return .sysret v : KProg n (Next n)).wp (spec strict (some p)) m
      fun next m' => Calm (some p) m'.g ∧ Done (some p) m' next := by
  have hgives : Gives (some p) m l := by
    cases l <;> trivial
  have hback : m.g.unlock (some p) l = m.g.setHeld [] := by
    rw [← unlock_single (g := m.g.setHeld []) rfl]
    congr 1
    ext <;> simp [h.held]
  refine ⟨by simp [h.held], hgives, ?_⟩
  rw [hback]
  exact sysret_done ⟨h.calm.setHeld [], rfl⟩ h.notWait

/-- The call goes to sleep, and comes back to its loop. -/
theorem Locked.sleep {ch : Chan n} {next : Next n} (hl : Plain l)
    (hok : SleepOk ((m.g.setTested true).setDrowsy (some l)) p ch)
    (hnext : ∀ m', Locked p l m' → Done (some p) m' next) :
    (do sleep ch l; return next : KProg n (Next n)).wp (spec strict (some p)) ⟨m.g.setTested true, m.k, m.a⟩
      fun next m' => Calm (some p) m'.g ∧ Done (some p) m' next := by
  have hgives : ∀ m, Gives (some p) m l := by
    intro m
    cases l <;> trivial
  rw [wp_bind]
  apply sleep_spec
  · rintro q rfl
    exact hl
  · exact h.held
  · exact h.calm.steady.setTested true
  · exact hok
  · exact fun k a _ => hgives _
  · intro k a hm
    have hlocked : Locked p l ⟨m.g, k, a.lock k l⟩ := ⟨h.calm, h.held, h.notWait.of_mine hm⟩
    rw [h.calm.untest]
    exact ⟨h.calm, hnext _ hlocked⟩

/-- The test of `p->killed` in a loop that may sleep. -/
theorem Locked.test {Q : Bool → Know n → Prop} (hstop : Q true m)
    (hgo : Q false ⟨m.g.setTested true, m.k, m.a⟩) : spec strict (some p) (.testKilled p) m Q := by
  have htested : m.g.setTested false = m.g := h.calm.untest false
  refine ⟨rfl, h.calm.phase, ?_, hgo⟩
  rw [htested]
  exact hstop

/-- `wakeup` in a call that has one lock. -/
theorem Locked.wakeup {Q : Unit → Know n → Prop} {ch : Option (Chan n)} (hl : Plain l)
    (hQ : ∀ m', Locked p l m' → Q () m') : (wakeup ch).wp (spec strict (some p)) m Q := by
  have hok : WakeOk (some p) m.g := by
    apply h.calm.steady.wakeOk
    intro q hq
    rw [h.held] at hq
    obtain rfl : Lock.proc q = l := by simpa using hq
    exact hl
  apply wp_imp (wakeup_spec ch hok)
  rintro - m' ⟨hlater, -⟩
  exact hQ m' (h.later hlater)

end

theorem pipereadCopy_spec {Q : Int32 → Know n → Prop} (i c : Nat) (v : Int32) (h : ∀ v, Q v m) :
    (pipereadCopy i c v).wp (spec strict (some p)) m Q := by
  induction c generalizing v with
  | zero => exact h v
  | succ c ih =>
    simp only [pipereadCopy, wp_bind, wp_issue, spec]
    intro x
    split
    · exact h v
    simp only [wp_bind, wp_issue, spec]
    intro ok
    split
    · exact ih _
    · exact h v

theorem pipereadLoop_good (i c : Nat) (h : Locked p (.pipe i) m) : Good strict (some p) (pipereadLoop p i c) m := by
  rw [Good, pipereadLoop, wp_bind]
  simp only [wp_issue, spec]
  intro x
  split
  · apply h.test
    · exact h.release trivial
    · exact h.sleep trivial ⟨rfl, fun _ => rfl, by rintro _ ⟨⟩⟩ fun m' h' => ⟨rfl, h'.held, h'.notWait⟩
  · rw [wp_bind]
    apply pipereadCopy_spec
    intro v
    rw [wp_bind]
    exact h.wakeup trivial fun m' h' => h'.release trivial

theorem pipewriteEnd_good (i c : Nat) (h : Locked p (.pipe i) m) : Good strict (some p) (pipewriteEnd i c) m := by
  rw [Good, pipewriteEnd, wp_bind]
  exact h.wakeup trivial fun m' h' => h'.release trivial

theorem pipewriteLoop_good (i c d : Nat) (h : Locked p (.pipe i) m) :
    Good strict (some p) (pipewriteLoop p i c d) m := by
  rw [Good, pipewriteLoop]
  split
  · rw [wp_bind]
    simp only [wp_issue, spec]
    intro x
    rw [wp_bind]
    split
    · apply h.test
      · exact h.release trivial
      rw [wp_ret, if_neg Bool.false_ne_true]
      split
      · -- the pipe is full
        have hok : WakeOk (some p) (m.g.setTested true) := (h.calm.steady.setTested true).wakeOk (by simp [h.held])
        rw [wp_bind]
        apply wp_imp (wakeup_spec _ hok)
        rintro - ⟨g₁, k₁, a₁⟩ ⟨hl, -⟩
        obtain rfl : g₁ = m.g.setTested true := hl.g
        have h₁ : Locked p (.pipe i) ⟨m.g, k₁, a₁⟩ := ⟨h.calm, h.held, h.notWait.of_mine hl.mine⟩
        exact h₁.sleep trivial ⟨rfl, fun _ => rfl, by rintro _ ⟨⟩⟩ fun m' h' => ⟨rfl, h'.held, h'.notWait⟩
      · rw [wp_bind]
        simp only [wp_issue, spec]
        rw [h.calm.untest]
        refine ⟨trivial, ?_⟩
        rintro ⟨- | b⟩
        · exact pipewriteEnd_good i d h
        · exact ⟨h.calm, rfl, h.held, h.notWait⟩
    · exact h.release trivial
  · exact pipewriteEnd_good i d h

theorem consolereadLoop_good (c target : Nat) (h : Locked p .cons m) :
    Good strict (some p) (consolereadLoop p c target) m := by
  rw [Good, consolereadLoop]
  split
  · exact h.release trivial
  rw [wp_bind]
  simp only [wp_issue, spec]
  intro x
  split
  · apply h.test
    · exact h.release trivial
    · exact h.sleep trivial ⟨rfl, fun _ => rfl, by rintro _ ⟨⟩⟩ fun m' h' => ⟨rfl, h'.held, h'.notWait⟩
  · split
    · split
      · exact h.release trivial
      · exact h.release trivial
    · rw [wp_bind]
      simp only [wp_issue, spec]
      rw [wp_bind]
      simp only [wp_issue, spec]
      intro ok
      split
      · exact ⟨h.calm, rfl, h.held, h.notWait⟩
      · exact h.release trivial

/-- The beginning of a call that takes a lock. -/
theorem enter_good {next : Fin n → Next n} (h : Free (some p) m.g)
    (hnw : NotWait (some p) m.k) (hnext : ∀ m', Locked p l m' → Done (some p) m' (next p)) :
    Good strict (some p) (do let p ← curproc; issue (.acquire l); return next p) m := by
  rw [Good, wp_bind]
  apply curproc_spec
  simp only [wp_bind, wp_issue, spec]
  rw [h.held]
  refine ⟨not_mem_nil, fun k a hag _ => ?_⟩
  exact ⟨h.setHeld _, hnext _ ⟨h.setHeld _, rfl, hnw.of_mine hag.mine⟩⟩

theorem piperead_good (i c : Nat) (h : Free (some p) m.g) (hnw : NotWait (some p) m.k) :
    Good strict (some p) (piperead i c) m :=
  enter_good h hnw fun _ h' => ⟨rfl, h'.held, h'.notWait⟩

theorem pipewrite_good (i c : Nat) (h : Free (some p) m.g) (hnw : NotWait (some p) m.k) :
    Good strict (some p) (pipewrite i c) m :=
  enter_good h hnw fun _ h' => ⟨rfl, h'.held, h'.notWait⟩

theorem consoleread_good (c : Nat) (h : Free (some p) m.g) (hnw : NotWait (some p) m.k) :
    Good strict (some p) (consoleread c) m :=
  enter_good h hnw fun _ h' => ⟨rfl, h'.held, h'.notWait⟩

end Devices

/-! ### Conditions and interrupts -/

section Conditions

variable {strict : Prop} {who : Option (Fin n)} {m : Know n} {p : Fin n} {i : Nat} [NeZero n]

/-- Unless a wakeup is due, nobody else is asleep on a condition that is true. -/
def Owed (who : Option (Fin n)) (i : Nat) (due : Bool) (m : Know n) : Prop :=
  due = false → m.k.cond i = true → ∀ q, m.a.passed (.cond i) q = true ∨ who = some q

omit [NeZero n] in
theorem owed_lock (g : Priv n) (k : Store n) (a : Aux n) (due : Bool) : Owed who i due ⟨g, k, a.lock k (.cond i)⟩ := by
  intro _ hc q
  left
  simpa [Aux.lock, lockOf] using hc

theorem crit_spec (c : Crit) (due : Bool) (h : Steady who m.g) (hheld : m.g.held = [.cond i])
    (htest : c = .test → who ≠ none ∧ m.g.tested = false) (ho : Owed who i due m) :
    (crit i c).wp (spec strict who) m fun _ m' => m'.g = m.g ∧ Mine who m.k m'.k ∧
      ∀ cs, obeys due (c :: cs) = true → ∃ due', obeys due' cs = true ∧ Owed who i due' m' := by
  have hmem : Lock.cond i ∈ m.g.held := by simp [hheld]
  cases c with
  | test =>
    simp only [crit, wp_bind, wp_issue, spec]
    refine of_held hmem ?_
    split
    · exact ⟨rfl, .refl _ _, fun cs hcs => ⟨due, hcs, ho⟩⟩
    rename_i hcond
    obtain ⟨hwho, htested⟩ := htest rfl
    obtain ⟨p, rfl⟩ := Option.ne_none_iff_exists'.mp hwho
    rw [wp_bind]
    apply sleep_spec
    · rintro _ ⟨⟩
    · exact hheld
    · exact h
    · exact ⟨rfl, by rintro ⟨⟩, by rintro _ ⟨⟩⟩
    · intro k a hag
      have hsame : m.k.cond i = k.cond i := hag.store _ mem_cons_self
      have hfalse : k.cond i = false := by simpa [hsame] using hcond
      exact ⟨fun hc => absurd (hfalse.symm.trans hc) (by rintro ⟨⟩), fun _ => hfalse⟩
    · intro k a hm
      have hg : m.g.setTested false = m.g := by
        ext <;> simp [htested]
      rw [hg]
      exact ⟨hmem, rfl, hm, fun cs hcs => ⟨due, hcs, owed_lock _ _ _ _⟩⟩
  | put b =>
    simp only [crit, wp_issue, spec]
    refine ⟨hmem, trivial, .of_log rfl, fun cs hcs => ⟨b, hcs, fun hb hc => ?_⟩⟩
    simp [hb] at hc
  | wakeup =>
    have hok : WakeOk who m.g := h.wakeOk fun q => by simp [hheld]
    apply wp_imp (wakeup_spec _ hok)
    rintro - m' ⟨hl, hpass⟩
    refine ⟨hl.g, hl.mine, fun cs hcs => ⟨false, hcs, fun _ _ q => ?_⟩⟩
    by_cases hq : who = some q
    · exact .inr hq
    · exact .inl (hpass q hq _ rfl hmem)

theorem crits_spec (cs : List Crit) (due : Bool) (h : Steady who m.g) (hheld : m.g.held = [.cond i])
    (htest : .test ∈ cs → who ≠ none ∧ m.g.tested = false) (ho : Owed who i due m)
    (hcs : obeys due cs = true) :
    (crits i cs).wp (spec strict who) m fun _ m' => m'.g = m.g ∧ Mine who m.k m'.k ∧ Owed who i false m' := by
  induction cs generalizing m due with
  | nil =>
    obtain rfl : due = false := by simpa [obeys] using hcs
    exact ⟨rfl, .refl _ _, ho⟩
  | cons c cs ih =>
    rw [crits, wp_bind]
    apply wp_imp
      (crit_spec c due h hheld (fun hc => htest (hc ▸ mem_cons_self)) ho)
    rintro - m₁ ⟨hg₁, hm₁, ho₁⟩
    obtain ⟨due₁, hcs₁, ho₁⟩ := ho₁ cs hcs
    apply wp_imp (ih due₁ (hg₁ ▸ h) (hg₁ ▸ hheld)
      (fun hc => hg₁ ▸ htest (mem_cons_of_mem c hc)) ho₁ hcs₁)
    rintro - m₂ ⟨hg₂, hm₂, ho₂⟩
    exact ⟨hg₂.trans hg₁, hm₁.trans hm₂, ho₂⟩

/-- **A user of a condition keeps to the rules**: when it releases the lock, nobody is asleep on a
condition that is true. -/
theorem client_spec (cs : List Crit) (h : Steady who m.g) (hheld : m.g.held = [])
    (htest : .test ∈ cs → who ≠ none ∧ m.g.tested = false) (hcs : obeys false cs = true) :
    (client i cs).wp (spec strict who) m fun _ m' => m'.g = m.g ∧ Mine who m.k m'.k := by
  simp only [client, wp_bind, wp_issue, spec]
  rw [hheld]
  refine ⟨not_mem_nil, fun k a hag _ => ?_⟩
  have h₁ : Steady who (m.g.setHeld [.cond i]) := ⟨h.phase, h.drowsy, h.wakes, h.blames⟩
  apply wp_imp
    (crits_spec (m := ⟨m.g.setHeld [.cond i], k, a.lock k (.cond i)⟩) cs false h₁ rfl htest (owed_lock _ _ _ _) hcs)
  rintro - ⟨g₂, k₂, a₂⟩ ⟨hg₂, hm₂, ho₂⟩
  obtain rfl : g₂ = m.g.setHeld [.cond i] := hg₂
  refine ⟨mem_cons_self, ⟨fun hc => ⟨ho₂ rfl hc, fun hwho => ⟨?_, h.drowsy⟩⟩, ?_⟩, ?_⟩
  · show m.g.phase = .run
    rw [h.phase, if_neg hwho]
  · rintro ⟨q, -, hmem, -⟩
    simp at hmem
  · rw [unlock_single hheld]
    exact ⟨rfl, hag.mine.trans hm₂⟩

/-- The console interrupt handler keeps to the rules. -/
theorem consoleintr_spec (c : UInt8) (h : Steady who m.g) (hheld : m.g.held = []) :
    (consoleintr c).wp (spec strict who) m fun _ m' => m'.g = m.g ∧ Mine who m.k m'.k := by
  have hback : (m.g.setHeld [.cons]).unlock who .cons = m.g := unlock_single hheld
  rw [consoleintr, wp_bind]
  simp only [wp_issue, spec]
  rw [hheld]
  refine ⟨not_mem_nil, fun k a hag _ => ?_⟩
  -- the lock is released in the end
  have hend : ∀ k' a', Mine who k k' → (issue (.release .cons) : KProg n Unit).wp (spec strict who)
      ⟨m.g.setHeld [.cons], k', a'⟩ fun _ m' => m'.g = m.g ∧ Mine who m.k m'.k := fun k' a' hm =>
    ⟨mem_cons_self, trivial, hback, hag.mine.trans hm⟩
  rw [wp_bind]
  simp only [wp_issue, spec]
  intro x
  split
  · exact hend k _ (.refl _ _)
  split
  · exact hend k _ (.refl _ _)
  split
  · exact hend k _ (.refl _ _)
  split
  · generalize (if c = 13 then (10 : UInt8) else c) = c'
    split
    · rw [wp_bind]
      have hok : WakeOk who (m.g.setHeld [.cons]) :=
        ⟨by simp, h.wakes, h.blames, fun hw => by simp [h.phase, hw]⟩
      apply wp_imp
        (wakeup_spec _ hok)
      rintro - ⟨g₁, k₁, a₁⟩ ⟨hl, -⟩
      obtain rfl : g₁ = m.g.setHeld [.cons] := hl.g
      exact hend k₁ a₁ hl.mine
    · exact hend k _ (.refl _ _)
  · exact hend k _ (.refl _ _)

end Conditions

/-! ### Traps -/

section Traps

variable {strict : Prop} {who : Option (Fin n)} {m : Know n} {p : Fin n} [NeZero n]

/-- **A device interrupt leaves the thread as it was.** -/
theorem handler_spec (x : Handler) (hx : x.ok = true) (h : Steady who m.g) (hheld : m.g.held = []) :
    x.prog.wp (spec strict who) m fun _ m' => m'.g = m.g ∧ Mine who m.k m'.k := by
  cases x with
  | console c => exact consoleintr_spec c h hheld
  | device i cs =>
    rw [Handler.ok, Bool.and_eq_true, all_eq_true] at hx
    apply client_spec cs h hheld
    · intro hmem
      simpa using hx.2 _ hmem
    · exact hx.1

/-- **A timer interrupt leaves the thread as it was**, when it comes back from `yield`. -/
theorem kerneltrapTick_spec (h : Steady who m.g) (hheld : m.g.held = []) :
    (kerneltrapTick (n := n)).wp (spec strict who) m fun _ m' => m'.g = m.g ∧ Mine who m.k m'.k := by
  simp only [kerneltrapTick, wp_bind, wp_issue, spec]
  rcases who with - | p
  · have hidle : m.g.phase = .idle := h.phase
    rw [hidle]
    exact ⟨rfl, .refl _ _⟩
  · have hyield : ∀ a, (yield).wp (spec strict (some p)) ⟨m.g, m.k, a⟩ fun _ m' =>
        m'.g = m.g ∧ Mine (some p) m.k m'.k := fun a =>
      yield_spec h hheld fun k a hm => ⟨rfl, hm⟩
    show Prog.wp _ (do let st ← issue (.state p); if st = .running then yield else return ()) m _
    simp only [wp_bind, wp_issue, spec]
    refine ⟨fun hmem => ?_, fun _ st => ?_⟩
    · simp [hheld] at hmem
    · split
      · exact hyield m.a
      · exact ⟨rfl, .refl _ _⟩

theorem usertrapret_good (h : Free (some p) m.g) : Good strict (some p) usertrapret m := by
  rw [Good, usertrapret, wp_bind]
  apply curproc_spec
  rw [wp_bind]
  simp only [wp_issue, spec]
  intro b
  split
  · exact exit_good h
  · exact ⟨h.toCalm, Option.some_ne_none p, h.held⟩

/-- **The system calls keep to the rules.** -/
theorem call_good (call : Call) (hok : call.ok = true) (hkill : ∀ pid, call = .kill pid → strict → pid ≠ 0)
    (h : Free (some p) m.g) (hcall : calling p m.k.log = some call)
    (hres : result p m.k.log = none) : Good strict (some p) call.prog m := by
  have hnw : (∀ addr, call ≠ .wait addr) → NotWait (some p) m.k := by
    rintro hne _ addr ⟨⟩ hc
    exact hne addr (Option.some.inj (hcall.symm.trans hc))
  cases call with
  | fork => exact fork_good h (hnw nofun)
  | exit status => exact exit_good h
  | wait addr => exact wait_good h hres
  | kill pid => exact kill_good (hkill pid rfl) _ h (hnw nofun)
  | piperead i c => exact piperead_good i c h (hnw nofun)
  | pipewrite i c => exact pipewrite_good i c h (hnw nofun)
  | consoleread c => exact consoleread_good c h (hnw nofun)
  | client i cs =>
    rw [Good, Call.prog, wp_bind]
    apply wp_imp (client_spec cs h.steady h.held (fun _ => ⟨nofun, h.tested⟩) hok)
    rintro - m' ⟨hg, hm⟩
    exact sysret_done (hg ▸ h) ((hnw nofun).of_mine hm)

theorem usertrapCall_good (call : Call) (hok : call.ok = true) (hkill : ∀ pid, call = .kill pid → strict → pid ≠ 0)
    (h : Free (some p) m.g) (hcall : calling p m.k.log = some call)
    (hres : result p m.k.log = none) : Good strict (some p) (usertrapCall call) m := by
  rw [Good, usertrapCall, wp_bind]
  apply curproc_spec
  rw [wp_bind]
  simp only [wp_issue, spec]
  intro b
  split
  · exact exit_good h
  · exact call_good call hok hkill h hcall hres

theorem usertrapFault_good (h : Free (some p) m.g) : Good strict (some p) usertrapFault m := by
  rw [Good, usertrapFault, wp_bind]
  apply curproc_spec
  rw [wp_bind]
  simp only [wp_issue, spec]
  refine ⟨_, .trapped p rfl h.phase, ?_⟩
  rw [wp_bind]
  simp only [wp_issue, spec]
  refine ⟨rfl, .inr ⟨trivial, h.phase, h.tested, ?_⟩⟩
  have hg : (m.g.setBlames (some p)).setBlames none = m.g := by
    ext <;> simp [h.blames]
  rw [hg]
  exact usertrapret_good h

theorem usertrapTick_good (h : Free (some p) m.g) : Good strict (some p) usertrapTick m := by
  rw [Good, usertrapTick, wp_bind]
  apply curproc_spec
  rw [wp_bind]
  simp only [wp_issue, spec]
  intro b
  split
  · exact exit_good h
  · rw [wp_bind]
    exact yield_spec h.steady h.held fun k a _ => ⟨h.toCalm, Option.some_ne_none p, h.held⟩

theorem usertrapIntr_good (x : Handler) (hx : x.ok = true) (h : Free (some p) m.g) :
    Good strict (some p) (do x.prog; usertrapret) m := by
  rw [Good, wp_bind]
  apply wp_imp (handler_spec x hx h.steady h.held)
  rintro - m' ⟨hg, -⟩
  exact usertrapret_good (hg ▸ h)

/-- **Where a thread goes on it keeps to the rules again.** -/
theorem next_good (next : Next n) (h : Calm who m.g) (hdone : Done who m next) : Good strict who next.prog m := by
  cases next with
  | user => exact ⟨h, hdone⟩
  | sysret v =>
    obtain ⟨hwho, hheld, -⟩ := hdone
    obtain ⟨p, rfl⟩ := Option.ne_none_iff_exists'.mp hwho
    exact usertrapret_good ⟨h, hheld⟩
  | wait p addr =>
    obtain ⟨rfl, hheld, hdirty, hfree, hres⟩ := hdone
    exact waitScan_good false _ ⟨h, hheld, hdirty, hfree, hres⟩ fun q _ => .inl (mem_finRange q)
  | piperead p i c =>
    obtain ⟨rfl, hheld, hnw⟩ := hdone
    exact pipereadLoop_good i c ⟨h, hheld, hnw⟩
  | pipewrite p i c d =>
    obtain ⟨rfl, hheld, hnw⟩ := hdone
    exact pipewriteLoop_good i c d ⟨h, hheld, hnw⟩
  | consoleread p c target =>
    obtain ⟨rfl, hheld, hnw⟩ := hdone
    exact consolereadLoop_good c target ⟨h, hheld, hnw⟩
  | scheduler =>
    obtain ⟨rfl, hheld⟩ := hdone
    exact scheduler_good ⟨h, hheld⟩

end Traps

end Xv6.Sched
