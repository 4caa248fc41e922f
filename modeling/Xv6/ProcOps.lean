/-
Xv6/ProcOps.lean

The rules are sound: an operation that a thread carries out within the rules keeps
the invariant, gives the thread what the rules promise, and leaves the views of
the other threads right (`Local`).

The two switches and `setContext`, which change what other threads do, are in
ProcRun.lean.
-/
import Xv6.ProcStep

namespace Xv6.Sched

open Function

variable {n : Nat} {C : Type}

/-! ### What a step leaves to the others -/

/-- What a thread still has to do. -/
def rest (s : Sys n C) (t : Thread n C) : KProg n (Next n) :=
  match s.trap t with
  | none => s.prog t
  | some x => do
    x
    s.prog t

/-- The process may be switched to, now or when it has been set up. -/
def Ready (s : Sys n C) (G : Thread n C → Priv n) (p : Fin n) : Prop :=
  (s.k.state p).alive = true ∨ ∃ t, (G t).child = some p ∧ (G t).ctx = true

/-- **What the thread on CPU `c` changes is its own**, or protected by its locks. -/
structure Local (c : C) (s s' : Sys n C) (G G' : Thread n C → Priv n) (a a' : Aux n) : Prop where
  cur : s'.cur = s.cur
  rest : rest s' = rest s
  notes : ∀ t, t ≠ s.thr c → G' t = G t
  store : ∀ l, l ∉ (G (s.thr c)).held → l ∉ (G' (s.thr c)).held → SameStore s.k s'.k l ∧ SameAux a a' l
  mine : ∀ p, s.cur c ≠ some p → Mine (some p) s.k s'.k
  ready : ∀ p, (∀ c, s.cur c ≠ some p) → Ready s' G' p → Ready s G p

section Locality

variable {strict fair : Prop} {s s' : Sys n C} {G G' : Thread n C → Priv n} {a a' : Aux n} {c : C} {l : Lock n}
  {p q : Fin n} {g : Priv n}

theorem Local.refl (c : C) (s : Sys n C) (G : Thread n C → Priv n) (a : Aux n) : Local c s s G G a a :=
  ⟨rfl, rfl, fun _ _ => rfl, fun l _ _ => ⟨.refl _ l, .refl _ l⟩, fun _ _ => .refl _ _, fun _ _ h => h⟩

variable [DecidableEq C] {k : Store n}

theorem Ready.of_update {t : Thread n C} (hr : Ready s' (update G t g) p) (hstate : s'.k.state = s.k.state)
    (hchild : g.child = (G t).child) (hctx : g.ctx = (G t).ctx) : Ready s G p := by
  refine hr.imp (fun hal => hstate ▸ hal) ?_
  rintro ⟨t', h₁, h₂⟩
  rw [update_field Priv.child hchild] at h₁
  rw [update_field Priv.ctx hctx] at h₂
  exact ⟨t', h₁, h₂⟩

theorem Local.tweak (hstate : k.state = s.k.state) (hchild : g.child = (G (s.thr c)).child) (hctx : g.ctx = (G (s.thr c)).ctx)
    (hstore : ∀ l, l ∉ (G (s.thr c)).held → SameStore s.k k l ∧ SameAux a a' l)
    (hmine : ∀ p, s.cur c ≠ some p → Mine (some p) s.k k) :
    Local c s (s.setK k) G (update G (s.thr c) g) a a' where
  cur := rfl
  rest := rfl
  notes _ ht := update_of_ne ht ..
  store l hl _ := hstore l hl
  mine := hmine
  ready _ _ hr := hr.of_update hstate hchild hctx

/-- Only the store changes. -/
theorem Local.setK (hstate : k.state = s.k.state) (hstore : ∀ l, l ∉ (G (s.thr c)).held → SameStore s.k k l)
    (hmine : ∀ p, s.cur c ≠ some p → Mine (some p) s.k k) : Local c s (s.setK k) G G a a := by
  have hlocal : Local c s (s.setK k) G (update G (s.thr c) (G (s.thr c))) a a :=
    .tweak hstate rfl rfl (fun l hl => ⟨hstore l hl, .refl _ l⟩) hmine
  rwa [update_eq_self] at hlocal

end Locality

/-! ### Single operations -/

section Ops

variable [DecidableEq C] [NeZero n] {strict fair : Prop} {s s' : Sys n C} {G : Thread n C → Priv n} {a : Aux n} {c : C}
  {l : Lock n} {p q : Fin n} {α : Type} {Q : α → Know n → Prop} {r : α}

/-- The thread on CPU `c` has carried out an operation and goes on, with what it knows. -/
def Taken (strict fair : Prop) (c : C) (s s' : Sys n C) (G : Thread n C → Priv n) (a : Aux n)
    (Q : α → Know n → Prop) (r : α) : Prop :=
  ∃ G' a', Pool strict fair s' G' a' ∧ Local c s s' G G' a a' ∧
    ∃ k₁ a₁, Q r ⟨G' (s.thr c), k₁, a₁⟩ ∧ Agree (s.cur c) (G' (s.thr c)).held k₁ s'.k a₁ a'

omit [DecidableEq C] in
theorem taken_read (h : Pool strict fair s G a) (hQ : Q r ⟨G (s.thr c), s.k, a⟩) : Taken strict fair c s s G a Q r :=
  ⟨G, a, h, .refl c s G a, s.k, a, hQ, .refl ..⟩

variable {k k₁ : Store n} {g : Priv n} {a' : Aux n}

/-- The notes of the thread change, and it sees the store as `k₁`. -/
theorem taken_update (h : Pool strict fair s' (update G (s.thr c) g) a')
    (hl : Local c s s' G (update G (s.thr c) g) a a') (hQ : Q r ⟨g, k₁, a'⟩) (hstore : ∀ l, SameStore k₁ s'.k l)
    (hmine : Mine (s.cur c) k₁ s'.k) : Taken strict fair c s s' G a Q r := by
  refine ⟨_, a', h, hl, k₁, a', ?_, fun l _ => hstore l, fun l _ => .refl _ l, hmine⟩
  rw [update_self]
  exact hQ

/-- A write to what the thread's locks protect. -/
theorem taken_write (h : Pool strict fair (s.setK k) G a) (hstate : k.state = s.k.state)
    (hstore : ∀ l, l ∉ (G (s.thr c)).held → SameStore s.k k l)
    (hmine : ∀ p, s.cur c ≠ some p → Mine (some p) s.k k) (hQ : Q r ⟨G (s.thr c), k, a⟩) :
    Taken strict fair c s (s.setK k) G a Q r :=
  ⟨G, a, h, .setK hstate hstore hmine, k, a, hQ, .refl ..⟩

section

variable (h : Pool strict fair s G a)

include h

/-- A write to what no lock of the model protects. -/
theorem taken_inert (hk : k.state = s.k.state ∧ k.pid = s.k.pid ∧ k.parent = s.k.parent ∧ k.chan = s.k.chan ∧ k.killed = s.k.killed ∧
      k.xstate = s.k.xstate ∧ k.cond = s.k.cond ∧ k.log = s.k.log ∧ k.window = s.k.window ∧ k.killing = s.k.killing)
    (hQ : Q r ⟨G (s.thr c), s.k, a⟩) : Taken strict fair c s (s.setK k) G a Q r := by
  obtain ⟨h₁, h₂, h₃, h₄, h₅, h₆, h₇, h₈, h₉, h₁₀⟩ := hk
  have hsame : ∀ l, SameStore s.k k l := .of_eq ⟨h₁, h₂, h₃, h₄, h₅, h₆, h₇⟩ fun q => congrArg (life q) h₈
  have hpool : Pool strict fair (s.setK k) G a := by
    apply h.setK
    · exact h₁
    · exact h₉
    · exact h₃
    · exact fun p _ => congrFun h₄ p
    · exact fun i _ => congrFun h₇ i
    · exact fun q hq => h₅ ▸ hq
    · exact fun q => congrArg (life q) h₈
    · exact fun q => congrArg (born q) h₈
    · exact fun q hb => h₈ ▸ hb
    · exact fun q _ => ⟨congrFun h₂ q, congrFun h₆ q⟩
    · exact fun q _ => congrFun h₁₀ q
  exact ⟨G, a, hpool, .setK h₁ (fun l _ => hsame l) fun p _ => .of_log h₈, s.k, a, hQ,
    fun l _ => hsame l, fun l _ => .refl _ l, .of_log h₈⟩

omit [DecidableEq C] in
/-- **`myproc` is the process on whose stack the CPU is.** -/
theorem Pool.myproc (c : C) : s.cproc c = (s.cur c <|> (G (s.thr c)).phase.proc) := by
  rw [h.stack.cproc c]
  rcases hc : s.cur c with - | p
  · rw [thr_of_idle hc]
    rfl
  · rw [(h.stack.busy c p hc).1]
    rfl

omit [DecidableEq C] in
/-- What comes with a lock that is free. -/
theorem Pool.gains (hl : s.lock l = none) : Gains strict (s.cur c) (G (s.thr c)) s.k l := by
  cases l with
  | proc q =>
    refine ⟨h.life.settled q hl, fun hc => ?_, fun hchild => ((h.marks.ok _).child q hchild).2.2, fun hs hst => ?_⟩
    · exact (h.stack.on_cpu hc (by rw [hl]; exact nofun)).2
    · by_contra hk
      exact (h.kills.blamed hs q (by simpa using hk)).1 hst
  | _ => trivial

theorem taken_acquire (hl : s.lock l = none)
    (hQ : ∀ k₁ a₁, Agree (s.cur c) (G (s.thr c)).held s.k k₁ a a₁ → Gains strict (s.cur c) (G (s.thr c)) k₁ l →
      Q r ⟨(G (s.thr c)).setHeld (l :: (G (s.thr c)).held), k₁, a₁.lock k₁ l⟩) :
    Taken strict fair c s ((s.setLock l (some c)).setNoff c (s.noff c + 1)) G a Q r := by
  have haux : ∀ l', l' ≠ l → SameAux a (a.lock s.k l) l' := by
    intro l' hl'
    refine ⟨fun ch hch => ?_, fun hw => ?_, fun hw => ?_, fun hw => ?_⟩
    · funext q
      exact (if_neg (hch ▸ hl')).symm
    · exact (if_neg fun hlw => hl' (hw.trans hlw.symm)).symm
    · exact (if_neg fun hlw => hl' (hw.trans hlw.symm)).symm
    · exact (if_neg fun hlw => hl' (hw.trans hlw.symm)).symm
  refine taken_update (h.acquire (c := c) hl) ⟨rfl, rfl, fun t ht => update_of_ne ht .., ?_, fun _ _ => .refl _ _, ?_⟩
    (hQ s.k a (.refl ..) (h.gains hl)) (.refl _) (.refl _ _)
  · intro l' _ hl'
    rw [update_self] at hl'
    exact ⟨.refl _ l', haux l' fun hll => hl' (hll ▸ List.mem_cons_self)⟩
  · exact fun _ _ hr => hr.of_update rfl rfl rfl

theorem taken_release (hl : l ∈ (G (s.thr c)).held) (hgives : Gives (s.cur c) ⟨G (s.thr c), s.k, a⟩ l)
    (hQ : Q r ⟨(G (s.thr c)).unlock (s.cur c) l, s.k, a.unlock (G (s.thr c)).held s.k l⟩) :
    Taken strict fair c s (((s.setLock l none).setNoff c (s.noff c - 1)).setK (s.k.endKill l)) G a Q r := by
  obtain ⟨h₁, h₂, h₃, h₄, h₅, h₆, h₇, h₈, -⟩ := s.k.endKill_rest l
  have hsame : ∀ l', SameStore s.k (s.k.endKill l) l' :=
    .of_eq ⟨h₁, h₂, h₃, h₄, h₅, h₆, h₇⟩ fun q => congrArg (life q) h₈
  have hfields : ((G (s.thr c)).unlock (s.cur c) l).child = (G (s.thr c)).child ∧
      ((G (s.thr c)).unlock (s.cur c) l).ctx = (G (s.thr c)).ctx := by
    rw [Priv.unlock]
    split <;> exact ⟨rfl, rfl⟩
  have haux : ∀ l', l' ∉ (G (s.thr c)).held → SameAux a (a.unlock (G (s.thr c)).held s.k l) l' := by
    intro l' hl'
    cases l with
    | proc q =>
      refine ⟨fun ch hch => ?_, fun _ => rfl, fun _ => rfl, fun _ => rfl⟩
      funext q'
      exact (if_neg fun hc => hl' (hch ▸ hc.2.1)).symm
    | _ => exact .refl _ _
  refine taken_update (h.release hl hgives) ⟨rfl, rfl, fun t ht => update_of_ne ht .., ?_, ?_, ?_⟩ hQ hsame (.of_log h₈)
  · exact fun l' hl' _ => ⟨hsame l', haux l' hl'⟩
  · exact fun _ _ => .of_log h₈
  · exact fun _ _ hr => hr.of_update h₁ hfields.1 hfields.2

theorem taken_moves {st : PState} (hq : .proc q ∈ (G (s.thr c)).held) (hmv : Moves (s.cur c) ⟨G (s.thr c), s.k, a⟩ q st g a')
    (hQ : s.k.state q ≠ .running → Q r ⟨g, s.k.setState q st, a'⟩)
    (hQ' : s.k.state q = .running → ∀ b, Q r ⟨g, (s.k.setKilled q b).setState q st, a'⟩) :
    Taken strict fair c s (s.move q st) G a Q r := by
  obtain ⟨hpid, hparent, hchan, hkilled, hx, hcond, hlog⟩ := @move_rest n C s q st
  have hne : ∀ q', q' ≠ q → (s.move q st).k.state q' = s.k.state q' := fun q' hq' => by
    rw [move_state, update_of_ne hq']
  have hoff : ∀ l, l ∉ (G (s.thr c)).held → l ≠ .proc q := by
    rintro l hl rfl
    exact hl hq
  have haux : ∀ l, l ∉ (G (s.thr c)).held → SameAux a a' l := by
    intro l hl
    cases hmv with
    | reap _ hwait =>
      exact ⟨fun _ _ => rfl, fun _ => rfl, fun _ => rfl, fun hw => absurd (hw ▸ hwait) hl⟩
    | exit _ _ _ _ hwait =>
      exact ⟨fun _ _ => rfl, fun hw => absurd (hw ▸ hwait) hl, fun _ => rfl, fun _ => rfl⟩
    | _ => exact .refl _ _
  -- the view of the thread, where `killed` is as it is
  obtain ⟨k₁, hQ₁, hk₁⟩ : ∃ k₁, Q r ⟨g, k₁, a'⟩ ∧ k₁.state = update s.k.state q st ∧ k₁.pid = s.k.pid ∧
      k₁.parent = s.k.parent ∧ k₁.chan = s.k.chan ∧ k₁.killed = s.k.killed ∧ k₁.xstate = s.k.xstate ∧
      k₁.cond = s.k.cond ∧ k₁.log = s.k.log := by
    by_cases hst : s.k.state q = .running
    · refine ⟨_, hQ' hst (s.k.killed q), rfl, rfl, rfl, rfl, ?_, rfl, rfl, rfl⟩
      exact update_eq_self ..
    · exact ⟨_, hQ hst, rfl, rfl, rfl, rfl, rfl, rfl, rfl, rfl⟩
  obtain ⟨e₁, e₂, e₃, e₄, e₅, e₆, e₇, e₈⟩ := hk₁
  have hsame : ∀ l, SameStore k₁ (s.move q st).k l := by
    refine .of_eq ⟨?_, ?_, ?_, ?_, ?_, ?_, ?_⟩ fun q => by rw [hlog, e₈]
    · rw [move_state, e₁]
    · rw [hpid, e₂]
    · rw [hparent, e₃]
    · rw [hchan, e₄]
    · rw [hkilled, e₅]
    · rw [hx, e₆]
    · rw [hcond, e₇]
  refine taken_update (h.moves hq hmv) ⟨rfl, rfl, fun t ht => update_of_ne ht .., ?_, ?_, ?_⟩ hQ₁ hsame
    (.of_log (hlog.trans e₈.symm))
  · intro l hl _
    refine ⟨.except (hoff l hl) (fun q' hq' => ?_) hparent hcond, haux l hl⟩
    rw [hne q' hq', hpid, hchan, hx, hlog, hkilled]
    exact ⟨rfl, rfl, rfl, rfl, rfl, rfl⟩
  · exact fun p _ => .of_log hlog
  · intro p hp hr
    rcases hr with hal | ⟨t, h₁, h₂⟩
    · rcases eq_or_ne p q with rfl | hpq
      · rw [move_state, update_self] at hal
        cases hmv with
        | wake hst | pick _ _ hst => exact .inl (by rw [show s.k.state p = _ from hst]; rfl)
        | birth hchild hctx => exact .inr ⟨_, hchild, hctx⟩
        | yield hc | sleep _ hc => exact absurd hc (hp c)
        | _ => cases hal
      · rw [hne p hpq] at hal
        exact .inl hal
    · by_cases ht : t = s.thr c
      · subst ht
        rw [update_self] at h₁ h₂
        cases hmv with
        | alloc => cases h₂
        | abort | birth => cases h₁
        | _ => exact .inr ⟨_, h₁, h₂⟩
      · rw [update_of_ne ht] at h₁ h₂
        exact .inr ⟨t, h₁, h₂⟩

theorem taken_adopts {o : Option (Fin n)} (had : Adopts (s.cur c) ⟨G (s.thr c), s.k, a⟩ q o g a') (hQ : Q r ⟨g, s.k.setParent q o, a'⟩) :
    Taken strict fair c s (s.setK (s.k.setParent q o)) G a Q r := by
  have hstore : ∀ l, l ∉ (G (s.thr c)).held → SameStore s.k (s.k.setParent q o) l ∧ SameAux a a' l := by
    intro l hl
    have hs : (l = .wait → (s.k.setParent q o).parent = s.k.parent) → SameStore s.k (s.k.setParent q o) l := fun hw =>
      .of (fun _ _ => ⟨rfl, rfl, rfl, rfl, rfl, fun _ => rfl⟩) hw fun _ _ => rfl
    cases had with
    | link p _ _ hwait => exact ⟨hs fun hw => absurd (hw ▸ hwait) hl, .refl _ l⟩
    | init hwait =>
      exact ⟨hs fun hw => absurd (hw ▸ hwait) hl, fun _ _ => rfl, fun _ => rfl, fun hw => absurd (hw ▸ hwait) hl,
        fun _ => rfl⟩
    | abort hchild hlinked =>
      refine ⟨hs fun _ => ?_, .refl _ l⟩
      -- it had no parent
      have hnone : s.k.parent q = none := by
        by_contra hp
        exact absurd (hlinked.symm.trans ((h.kin.child _ q hchild).mpr hp)) Bool.false_ne_true
      show update s.k.parent q none = s.k.parent
      rw [← hnone, update_eq_self]
    | reap hq hwait =>
      exact ⟨hs fun hw => absurd (hw ▸ hwait) hl, fun _ _ => rfl, fun _ => rfl, fun _ => rfl,
        fun hw => absurd (hw ▸ hwait) hl⟩
  have hfields : g.child = (G (s.thr c)).child ∧ g.ctx = (G (s.thr c)).ctx := by
    cases had with
    | link p _ _ _ hchild => exact ⟨hchild.symm, rfl⟩
    | _ => exact ⟨rfl, rfl⟩
  exact taken_update (h.adopts had) (.tweak rfl hfields.1 hfields.2 hstore fun _ _ => .of_log rfl) hQ (.refl _) (.refl _ _)

end

variable {ev : Event n}

omit [NeZero n] in
/-- What the other processes record does not change. -/
theorem Notes.mine {m : Know n} {who : Option (Fin n)} (hn : Notes strict who m ev g)
    (hp : who ≠ some p) (k : Store n) : Mine (some p) k (k.note ev) := by
  constructor
  · rintro _ ⟨⟩
    cases hn <;> rfl
  · rintro _ ⟨⟩
    cases hn with
    | waited p' addr q pid status hself =>
      have hne : p' ≠ p := fun hpp => hp (hpp ▸ hself)
      exact (if_neg hne).symm
    | _ => rfl
  · rintro _ ⟨⟩
    cases hn <;> rfl

section

variable (h : Pool strict fair s G a)

include h

theorem taken_notes (hn : Notes strict (s.cur c) ⟨G (s.thr c), s.k, a⟩ ev g) (hQ : Q r ⟨g, s.k.note ev, a⟩) :
    Taken strict fair c s (s.setK (s.k.note ev)) G a Q r := by
  have hstore : ∀ l, l ∉ (G (s.thr c)).held → SameStore s.k (s.k.note ev) l ∧ SameAux a a l := by
    intro l hl
    refine ⟨.of (fun q' hq' => ⟨rfl, rfl, rfl, rfl, ?_, fun _ => rfl⟩) (fun _ => rfl) fun _ _ => rfl, .refl _ l⟩
    have hne : ∀ q, .proc q ∈ (G (s.thr c)).held → q ≠ q' := by
      rintro q hq rfl
      exact hl (hq' ▸ hq)
    show life q' (ev :: s.k.log) = life q' s.k.log
    cases hn with
    | created q _ hq | aborted q hq | exited q _ _ hq | waited _ _ q _ _ _ hq => rw [life, if_neg (hne q hq)]
    | killed | trapped => rfl
  have hfields : g.child = (G (s.thr c)).child ∧ g.ctx = (G (s.thr c)).ctx := by
    cases hn <;> exact ⟨rfl, rfl⟩
  exact taken_update (h.notes hn) (.tweak rfl hfields.1 hfields.2 hstore fun p hp => hn.mine hp _) hQ (.refl _) (.refl _ _)

theorem taken_setKilled (hblames : (G (s.thr c)).blames = some q) (hfair : fair → s.k.window q = false)
    (hw : (.proc q ∈ (G (s.thr c)).held ∧ (G (s.thr c)).wakes = none ∧
        g = (if s.k.state q = .sleeping then (G (s.thr c)).setWakes (some q) else G (s.thr c)).setBlames none) ∨
      (s.cur c = some q ∧ (G (s.thr c)).phase = .run ∧ g = (G (s.thr c)).setBlames none))
    {x : Bool} (hx : s.lock (.proc q) = some c → x = true) (hQ : Q r ⟨g, s.k.setKilled q true, a⟩) :
    Taken strict fair c s (s.setK ((s.k.setKilled q true).setKilling q x)) G a Q r := by
  have hstore : ∀ l, l ∉ (G (s.thr c)).held →
      SameStore s.k ((s.k.setKilled q true).setKilling q x) l ∧ SameAux a a l := by
    intro l hl
    refine ⟨.of (fun q' hq' => ⟨rfl, rfl, rfl, rfl, rfl, fun hst => ?_⟩) (fun _ => rfl) fun _ _ => rfl, .refl _ l⟩
    refine update_of_ne (fun hqq => ?_) ..
    subst hqq
    rcases hw with ⟨hheld, -⟩ | ⟨hc, hrun, -⟩
    · exact hl (hq' ▸ hheld)
    · exact hst (h.stack.running_of_run hc (thr_of_cur hc ▸ hrun))
  have hfields : g.child = (G (s.thr c)).child ∧ g.ctx = (G (s.thr c)).ctx := by
    rcases hw with ⟨-, -, rfl⟩ | ⟨-, -, rfl⟩
    · split <;> exact ⟨rfl, rfl⟩
    · exact ⟨rfl, rfl⟩
  exact taken_update (h.setKilled hblames hfair hw hx) (.tweak rfl hfields.1 hfields.2 hstore fun _ _ => .of_log rfl) hQ
    (.of_eq ⟨rfl, rfl, rfl, rfl, rfl, rfl, rfl⟩ fun _ => rfl) (.of_log rfl)

theorem taken_setTested (hc : s.cur c = some p) (b : Bool)
    (hb : b = true → s.k.killed p = false ∧ (G (s.thr c)).phase = .run)
    (hQ : Q r ⟨(G (s.thr c)).setTested b, s.k, a⟩) :
    Taken strict fair c s (s.setK (s.k.setWindow p b)) G a Q r := by
  have hsame : ∀ l, SameStore s.k (s.k.setWindow p b) l := .of_eq ⟨rfl, rfl, rfl, rfl, rfl, rfl, rfl⟩ fun _ => rfl
  exact taken_update (h.setTested hc b hb) (.tweak rfl rfl rfl (fun l _ => ⟨hsame l, .refl _ l⟩) fun _ _ => .of_log rfl) hQ
    hsame (.of_log rfl)

theorem taken_setProc (hc : s.cur c = none) {x : Phase n}
    (hph : (∃ p, (G (.sched c)).phase = .picked p ∧ x = .go p) ∨ (∃ p, (G (.sched c)).phase = .back p) ∧ x = .idle)
    (hQ : Q r ⟨(G (s.thr c)).setPhase x, s.k, a⟩) :
    Taken strict fair c s (s.setCproc c x.proc) G a Q r := by
  have hlocal : Local c s (s.setK s.k) G (update G (s.thr c) ((G (s.thr c)).setPhase x)) a a :=
    .tweak rfl rfl rfl (fun l _ => ⟨.refl _ l, .refl _ l⟩) fun _ _ => .refl _ _
  exact taken_update (h.setProc hc hph) ⟨rfl, rfl, hlocal.notes, hlocal.store, hlocal.mine, hlocal.ready⟩ hQ (.refl _)
    (.refl _ _)

omit [DecidableEq C] in
/-- What a thread learns about a process without locks, it does not rely on. -/
theorem taken_state {Q : PState → Know n → Prop} (hs : spec strict (s.cur c) (.state q) ⟨G (s.thr c), s.k, a⟩ Q) :
    Taken strict fair c s s G a Q (s.k.state q) := by
  by_cases hq : .proc q ∈ (G (s.thr c)).held
  · have hQ := hs.1 hq
    split at hQ
    · rename_i hz
      refine ⟨G, a.setNz q, h.setNz hz.2, ⟨rfl, rfl, fun _ _ => rfl, fun l hl _ => ⟨.refl _ l, ?_⟩, fun _ _ => .refl _ _,
        fun _ _ hr => hr⟩, s.k, a.setNz q, hQ, .refl ..⟩
      exact ⟨fun _ _ => rfl, fun hw => absurd (hw ▸ hz.1) hl, fun _ => rfl, fun _ => rfl⟩
    · exact taken_read h hQ
  · exact taken_read h (hs.2 hq _)

/-- An event that leaves the lives of the processes as they are. -/
theorem taken_note (hlife : ∀ q, life q (ev :: s.k.log) = life q s.k.log)
    (hborn : ∀ q, born q (ev :: s.k.log) = born q s.k.log) (hblamed : ∀ q, Blamed q s.k.log → Blamed q (ev :: s.k.log))
    (hmine : ∀ p, s.cur c ≠ some p → Mine (some p) s.k (s.k.note ev)) (hQ : Q r ⟨G (s.thr c), s.k.note ev, a⟩) :
    Taken strict fair c s (s.setK (s.k.note ev)) G a Q r := by
  have hsame : ∀ l, SameStore s.k (s.k.note ev) l := .of_eq ⟨rfl, rfl, rfl, rfl, rfl, rfl, rfl⟩ hlife
  refine taken_write ?_ rfl (fun l _ => hsame l) hmine hQ
  apply h.setK
  · rfl
  · rfl
  · rfl
  · exact fun _ _ => rfl
  · exact fun _ _ => rfl
  · exact fun _ hq => hq
  · exact hlife
  · exact hborn
  · exact hblamed
  · exact fun _ _ => ⟨rfl, rfl⟩
  · exact fun _ _ => rfl

theorem taken_stored {addr : UInt64} {status : Int32} (hc : s.cur c = some p)
    (hQ : Q r ⟨G (s.thr c), s.k.note (.stored p addr status), a⟩) :
    Taken strict fair c s (s.setK (s.k.note (.stored p addr status))) G a Q r := by
  refine taken_note h (fun _ => rfl) (fun _ => rfl) (fun _ hb => hb) (fun p' hp' => ⟨fun _ _ => rfl, fun _ _ => rfl, ?_⟩) hQ
  rintro _ ⟨⟩
  have hne : p ≠ p' := fun hpp => hp' (hpp ▸ hc)
  exact (if_neg hne).symm

/-- A field of a process that its lock protects. -/
theorem taken_field (hq : .proc q ∈ (G (s.thr c)).held)
    (hsame : k.state = s.k.state ∧ k.parent = s.k.parent ∧ k.cond = s.k.cond ∧ k.log = s.k.log ∧
      k.window = s.k.window ∧ k.killing = s.k.killing)
    (hchan : s.k.state q = .sleeping → k.chan q = s.k.chan q) (hkilled : k.killed q = true → s.k.killed q = true)
    (hne : ∀ q', q' ≠ q → k.pid q' = s.k.pid q' ∧ k.chan q' = s.k.chan q' ∧ k.xstate q' = s.k.xstate q' ∧
      k.killed q' = s.k.killed q') (hQ : Q r ⟨G (s.thr c), k, a⟩) :
    Taken strict fair c s (s.setK k) G a Q r := by
  obtain ⟨hstate, hparent, hcond, hlog, hwindow, hkilling⟩ := hsame
  refine taken_write ?_ hstate (fun l hl => ?_) (fun _ _ => .of_log hlog) hQ
  · apply h.setK
    · exact hstate
    · exact hwindow
    · exact hparent
    · intro q' hst
      by_cases hqq : q' = q
      · rw [hqq] at hst ⊢
        exact hchan hst
      · exact (hne q' hqq).2.1
    · exact fun i _ => congrFun hcond i
    · intro q' hk
      by_cases hqq : q' = q
      · rw [hqq] at hk ⊢
        exact hkilled hk
      · rwa [(hne q' hqq).2.2.2] at hk
    · exact fun q => congrArg (life q) hlog
    · exact fun q => congrArg (born q) hlog
    · exact fun q hb => hlog ▸ hb
    · intro q' hl
      have hqq : q' ≠ q := by
        rintro rfl
        exact absurd ((h.locks.held c _).mp hq) (by rw [hl]; exact nofun)
      exact ⟨(hne q' hqq).1, (hne q' hqq).2.2.1⟩
    · exact fun q' _ => congrFun hkilling q'
  · refine .except (fun hlq => hl (hlq ▸ hq)) (fun q' hq' => ?_) hparent hcond
    obtain ⟨h₁, h₂, h₃, h₄⟩ := hne q' hq'
    exact ⟨congrFun hstate q', h₁, h₂, h₃, by rw [hlog], h₄⟩

theorem taken_setCond {i : Nat} {b : Bool} (hi : .cond i ∈ (G (s.thr c)).held)
    (hQ : Q r ⟨G (s.thr c), s.k.setCond i b, a⟩) :
    Taken strict fair c s (s.setK (s.k.setCond i b)) G a Q r := by
  have hne : ∀ j, Lock.cond j ≠ (.cond i : Lock n) → (s.k.setCond i b).cond j = s.k.cond j := fun j hj =>
    update_of_ne (fun hji => hj (congrArg Lock.cond hji)) ..
  refine taken_write ?_ rfl (fun l hl => ?_) (fun _ _ => .of_log rfl) hQ
  · apply h.setK
    · rfl
    · rfl
    · rfl
    · exact fun _ _ => rfl
    · intro j hj
      refine hne j fun hji => ?_
      rw [hji, (h.locks.held c _).mp hi] at hj
      cases hj
    · exact fun _ hq => hq
    · exact fun _ => rfl
    · exact fun _ => rfl
    · exact fun _ hb => hb
    · exact fun _ _ => ⟨rfl, rfl⟩
    · exact fun _ _ => rfl
  · refine .of (fun _ _ => ⟨rfl, rfl, rfl, rfl, rfl, fun _ => rfl⟩) (fun _ => rfl) fun j hj => ?_
    exact hne j fun hji => hl (hj ▸ hji ▸ hi)

end

/-- The operation stays on the stack of its thread and leaves the contexts alone. -/
def Op.plain : Op n → Bool
  | .swtchTo _ | .swtch | .setContext _ => false
  | _ => true

/-- **The rules are sound.** -/
theorem op_sound {o : Op n} {Q : o.Resp → Know n → Prop} {r : o.Resp} {hint : Option UInt8}
    (h : Pool strict fair s G a) (hplain : o.plain = true)
    (hfair : fair → ∀ q, o = .setKilled q true → s.k.window q = false)
    (hs : spec strict (s.cur c) o ⟨G (s.thr c), s.k, a⟩ Q) (hex : exec c hint s o = .ok (s', r)) :
    Taken strict fair c s s' G a Q r := by
  cases o with
  | acquire l =>
    rw [exec] at hex
    split at hex
    · cases hex
    split at hex
    · cases hex
      exact taken_acquire h ‹_› hs.2
    · cases hex
  | release l =>
    rw [exec] at hex
    split at hex
    · cases hex
      exact taken_release h hs.1 hs.2.1 hs.2.2
    · cases hex
  | holding l =>
    cases hex
    refine taken_read h ?_
    rw [← decide_eq_decide.mpr (h.locks.held c l)]
    exact hs
  | noff =>
    cases hex
    refine taken_read h ?_
    rw [h.locks.noff c]
    exact hs
  | myproc =>
    cases hex
    refine taken_read h ?_
    rw [h.myproc c]
    exact hs
  | setProc o =>
    cases hex
    cases o with
    | none =>
      obtain ⟨hc, hback, hQ⟩ := hs
      rw [thr_of_idle hc] at hback
      exact taken_setProc h hc (.inr ⟨hback, rfl⟩) hQ
    | some p =>
      obtain ⟨hc, hpicked, hQ⟩ := hs
      rw [thr_of_idle hc] at hpicked
      exact taken_setProc h hc (.inl ⟨p, hpicked, rfl⟩) hQ
  | swtchTo _ | swtch | setContext _ => cases hplain
  | state q =>
    cases hex
    exact taken_state h hs
  | setState q st =>
    cases hex
    obtain ⟨hq, g, a', hmv, hQ, hQ'⟩ := hs
    exact taken_moves h hq hmv hQ hQ'
  | pid _ | parent _ | chan _ | xstate _ | cond _ =>
    cases hex
    exact taken_read h (if hq : _ then hs.1 hq else hs.2 hq _)
  | setPid q v =>
    cases hex
    refine taken_field h hs.1 ⟨rfl, rfl, rfl, rfl, rfl, rfl⟩ (fun _ => rfl) (fun hk => hk) (fun q' hq' => ?_) hs.2.2
    exact ⟨update_of_ne hq' .., rfl, rfl, rfl⟩
  | setParent q o =>
    cases hex
    obtain ⟨g, a', had, hQ⟩ := hs
    exact taken_adopts h had hQ
  | setChan q o =>
    cases hex
    refine taken_field h hs.1 ⟨rfl, rfl, rfl, rfl, rfl, rfl⟩ (fun hst => absurd hst hs.2.1) (fun hk => hk) (fun q' hq' => ?_)
      hs.2.2
    exact ⟨rfl, update_of_ne hq' .., rfl, rfl⟩
  | setXstate q v =>
    cases hex
    refine taken_field h hs.1 ⟨rfl, rfl, rfl, rfl, rfl, rfl⟩ (fun _ => rfl) (fun hk => hk) (fun q' hq' => ?_) hs.2
    exact ⟨rfl, rfl, update_of_ne hq' .., rfl⟩
  | setKilled q b =>
    cases hex
    cases b with
    | true =>
      have hx : s.lock (.proc q) = some c → (s.k.killing q || (true && decide (s.lock (.proc q) = some c))) = true :=
        fun hl => by simp [hl]
      obtain ⟨hblames, ⟨hq, hw, hQ⟩ | ⟨hc, hrun, -, hQ⟩⟩ := hs
      · exact taken_setKilled h hblames (fun hf => hfair hf q rfl) (.inl ⟨hq, hw, rfl⟩) hx hQ
      · exact taken_setKilled h hblames (fun hf => hfair hf q rfl) (.inr ⟨hc, hrun, rfl⟩) hx hQ
    | false =>
      have hkilling : (s.k.setKilled q false).setKilling q (s.k.killing q || (false && decide (s.lock (.proc q) = some c))) =
          s.k.setKilled q false := by
        simp [Store.setKilling, Store.setKilled]
      rw [hkilling]
      refine taken_field h hs.1 ⟨rfl, rfl, rfl, rfl, rfl, rfl⟩ (fun _ => rfl) (fun hk => ?_) (fun q' hq' => ?_) hs.2.2
      · rw [Store.setKilled_killed, update_self] at hk
        cases hk
      · exact ⟨rfl, rfl, rfl, update_of_ne hq' ..⟩
  | killed _ | nextpid | kalloc | copyoutByte _ | copyinByte | pipe _ | cons =>
    cases hex
    exact taken_read h (hs _)
  | setNextpid _ | setPipe _ _ | setCons _ =>
    cases hex
    exact taken_inert h ⟨rfl, rfl, rfl, rfl, rfl, rfl, rfl, rfl, rfl, rfl⟩ hs
  | freemem q =>
    cases hex
    exact taken_read h hs.2.2.2
  | copyout addr status =>
    rcases hc : s.cur c with - | p
    · simp only [exec, hc] at hex
      cases hex
      exact taken_read h hs.1
    · simp only [exec, hc] at hex
      cases hint with
      | none =>
        cases hex
        exact taken_read h hs.1
      | some _ =>
        cases hex
        exact taken_stored h hc (hs.2 p hc)
  | setCond i b =>
    cases hex
    exact taken_setCond h hs.1 hs.2
  | testKilled p =>
    cases hex
    obtain ⟨hc, hrun, hyes, hno⟩ := hs
    cases hk : s.k.killed p with
    | true => exact taken_setTested h hc false nofun hyes
    | false => exact taken_setTested h hc true (fun _ => ⟨hk, hrun⟩) hno
  | untest p =>
    cases hex
    exact taken_setTested h hs.1 false nofun hs.2
  | note ev =>
    cases hex
    obtain ⟨g, hn, hQ⟩ := hs
    exact taken_notes h hn hQ
  | woken i =>
    cases hex
    exact taken_read h hs.2
  | panic msg => cases hex

end Ops

end Xv6.Sched
