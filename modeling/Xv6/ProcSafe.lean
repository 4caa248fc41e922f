/-
Xv6/ProcSafe.lean

What the invariant says about processes, for any number of CPUs and any schedule.

The next operation of a CPU is within the rules, so that where a thread is about
to free a process, or is back from `sleep`, it knows what the rules ask for there.
-/
import Xv6.ProcRun

namespace Xv6.Sched

open List Machine

variable {n : Nat} {C : Type} [NeZero n]

/-! ### What a thread knows -/

section Known

variable {strict fair : Prop} {s s' : Sys n C} {G : Thread n C → Priv n} {a : Aux n} {c : C} {p q : Fin n} {o : Op n}

/-- The next operation is within the rules. -/
theorem Codes.next (hc : Codes strict s G a) (ho : nextOp s c = some o) :
    ∃ f : o.Resp → KProg n (Next n), spec strict (s.cur c) o ⟨G (s.thr c), s.k, a⟩ fun r m => Good strict (s.cur c) (f r) m := by
  have hgood := hc.cpu c
  rw [nextOp] at ho
  split at ho
  · rename_i o' f hrest
    obtain rfl := Option.some.inj ho
    rw [hrest] at hgood
    exact ⟨f, hgood⟩
  · cases ho

theorem Pool.running_iff (h : Pool strict fair s G a) (hl : s.lock (.proc p) = none) :
    s.k.state p = .running ↔ ∃ c, s.cproc c = some p := by
  have hfree : ∀ c, s.lock (.proc p) ≠ some c := fun c => by rw [hl]; exact nofun
  constructor
  · intro hst
    rcases h.stack.running p hst with ⟨c, hc⟩ | ⟨c, hc, hph⟩
    · refine ⟨c, ?_⟩
      rw [h.stack.cproc c, (h.stack.busy c p hc).1]
      rfl
    · -- a scheduler that has just made it RUNNING has the lock
      have hat := h.stack.idle c hc
      rcases hph with hph | hph <;> rw [hph] at hat <;> exact absurd hat.1 (hfree c)
  · rintro ⟨c, hcp⟩
    rcases hc : s.cur c with - | p'
    · have hat := h.stack.idle c hc
      rw [h.stack.cproc c] at hcp
      rcases hph : (G (.sched c)).phase with _ | _ | _ | r | r | r <;> rw [hph] at hcp hat
      · cases hcp
      · cases hcp
      · cases hcp
      · cases hcp
      · obtain rfl : r = p := Option.some.inj hcp
        exact absurd hat.1 (hfree c)
      · obtain rfl : r = p := Option.some.inj hcp
        exact absurd hat (hfree c)
    · rw [h.stack.cproc c, (h.stack.busy c p' hc).1] at hcp
      obtain rfl : p' = p := Option.some.inj hcp
      exact (h.stack.on_cpu hc (hfree c)).2

theorem Pool.freemem_off (h : Pool strict fair s G a) (hc : Codes strict s G a) (ho : nextOp s c = some (.freemem q)) :
    ∀ c', s.cur c' ≠ some q := by
  obtain ⟨f, hq, hself, hst, -⟩ := hc.next ho
  apply h.stack.off_cpu ((h.locks.held c _).mp hq) hself
  rcases hst with hst | hst <;> rw [show s.k.state q = _ from hst] <;> exact nofun

/-- A thread at the end of a call. -/
theorem Codes.done {next : Next n} (hc : Codes strict s G a) (hrest : rest s (s.thr c) = .ret next) :
    Done (s.cur c) ⟨G (s.thr c), s.k, a⟩ next := by
  have hgood := hc.cpu c
  rw [hrest] at hgood
  exact hgood.2

omit [NeZero n] in
/-- Nothing of the log is forgotten. -/
theorem exec_log [DecidableEq C] {r : o.Resp} {hint : Option UInt8} (hex : exec c hint s o = .ok (s', r)) :
    s.k.log <:+ s'.k.log := by
  cases o with
  | acquire l =>
    rw [exec] at hex
    split at hex
    · cases hex
    split at hex
    · cases hex
      exact suffix_rfl
    · cases hex
  | release l =>
    rw [exec] at hex
    split at hex
    · cases hex
      rw [show (Sys.setK _ (s.k.endKill l)).k.log = s.k.log from (s.k.endKill_rest l).2.2.2.2.2.2.2.1]
    · cases hex
  | setState q st =>
    cases hex
    exact (@move_rest n C s q st).2.2.2.2.2.2 ▸ suffix_rfl
  | note ev =>
    cases hex
    exact suffix_cons ev _
  | copyout addr status =>
    simp only [exec] at hex
    split at hex
    · cases hex
      exact suffix_cons _ _
    · cases hex
      exact suffix_rfl
  | panic msg => cases hex
  | _ =>
    cases hex
    exact suffix_rfl

theorem cpus_log [DecidableEq C] {l : Act C} (hstep : cpus s l = .ok s') : s.k.log <:+ s'.k.log := by
  cases l with
  | step c hint =>
    rw [cpus, cpuStep] at hstep
    split at hstep
    · cases hstep
      exact suffix_rfl
    · split at hstep
      · rename_i hex
        have hlog := exec_log hex
        cases hstep
        exact hlog
      · cases hstep
      · cases hstep
    · split at hstep
      · cases hstep
      · cases hstep
        exact suffix_rfl
      split at hstep
      · rename_i hex
        have hlog := exec_log hex
        cases hstep
        exact hlog
      · cases hstep
      · cases hstep
  | call c call =>
    rw [cpus] at hstep
    split at hstep
    · split at hstep
      · cases hstep
        exact suffix_cons _ _
      · cases hstep
    · cases hstep
  | fault c =>
    rw [cpus] at hstep
    split at hstep
    · cases hstep
      exact suffix_rfl
    · cases hstep
  | tick c | intr c x =>
    rw [cpus] at hstep
    split at hstep
    · split at hstep <;> cases hstep <;> exact suffix_rfl
    · cases hstep

end Known

/-! ### Schedules of two CPUs -/

/-- A CPU takes `m` steps, and there is memory for all of them. -/
def steps (c : Fin 2) (m : Nat) : List (Act (Fin 2)) := replicate m (.step c (some 0))

/-- Two processes, two CPUs and an empty pipe. -/
def two : Sys 2 (Fin 2) := boot (fun _ => false) (fun _ => ⟨fun _ => 0, 0, 0, true, true⟩) ⟨fun _ => 0, 0, 0, 0⟩

/-- Init forks on CPU 0, and CPU 1 switches to the child. -/
def forked : List (Act (Fin 2)) := steps 0 8 ++ .call 0 .fork :: steps 0 30 ++ steps 1 11

/-- The child exits, and init waits for it up to where it frees the child. -/
def exited : List (Act (Fin 2)) := forked ++ .call 1 (.exit 7) :: steps 1 24 ++ .call 0 (.wait 64) :: steps 0 13

/-- Init sleeps on a condition, an interrupt makes it true, and `sleep` returns. -/
def awoken : List (Act (Fin 2)) :=
  steps 0 8 ++ .call 0 (.client 0 [.test]) :: steps 0 19 ++ .intr 0 (.device 0 [.put true, .wakeup]) :: steps 0 23

/-- Init kills its child. -/
def killChild : List (Act (Fin 2)) := forked ++ .call 0 (.kill 2) :: steps 0 14

/-- Init calls `kill(0)` and forks. -/
def killZero : List (Act (Fin 2)) := steps 0 8 ++ .call 0 (.kill 0) :: steps 0 14

/-- Init reads from the empty pipe and finds `killed` to be 0; before it is SLEEPING, its child kills it. -/
def killLate : List (Act (Fin 2)) :=
  forked ++ .call 0 (.piperead 0 1) :: steps 0 7 ++ .call 1 (.kill 1) :: steps 1 11 ++ steps 0 13

/-- Init is asleep on the empty pipe when its child kills it. -/
def killAsleep : List (Act (Fin 2)) :=
  forked ++ .call 0 (.piperead 0 1) :: steps 0 20 ++ .call 1 (.kill 1) :: steps 1 12

/-- The next operation frees this process. -/
def frees (q : Fin n) : Option (Op n) → Bool
  | some (.freemem q') => q' = q
  | _ => false

/-- The next operation is the return of `sleep`. -/
def returnsFrom (i : Nat) : Option (Op n) → Bool
  | some (.woken j) => j = i
  | _ => false

/-- The system call is about to return this value. -/
def gives (v : Int32) : KProg n (Next n) → Bool
  | .ret (.sysret v') => v' = v
  | _ => false

/-- What the schedules come to. -/
@[mk_iff] structure Reached : Prop where
  freed : passes cpus two exited (fun s => frees 1 (nextOp s 0) && s.noff 0 = 2) = true
  collected : passes cpus two (exited ++ steps 0 9) (fun s => gives 2 (rest s (s.thr 0)) &&
    (s.cur 0 = some 0 && calling 0 s.k.log = some (.wait 64) && s.lock (.proc 1) = none &&
      s.k.state 1 = .unused)) = true
  woken : passes cpus two awoken (fun s => returnsFrom 0 (nextOp s 0)) = true
  killed : passes cpus two killChild (fun s => s.k.killed 1) = true
  named : Machine.Along cpus (fun _ l => l.named = true) two killChild
  marked : passes cpus two killZero (fun s => s.k.state 1 = .unused && s.k.killed 1) = true
  inherited : passes cpus two (killZero ++ .call 0 .fork :: steps 0 30) (fun s =>
    s.k.state 1 = .runnable && (s.k.pid 1 = 2 && (s.k.killed 1 && (Event.killed 1 2 ∉ s.k.log &&
      Event.trapped 1 ∉ s.k.log)))) = true
  missed : passes cpus two killLate (fun s => inUser s 1 && (s.lock (.proc 0) = none &&
    (!s.k.killing 0 && (s.k.killed 0 && (s.k.state 0 = .sleeping && s.k.chan 0 = some (.pipeRead 0)))))) = true
  heard : passes cpus two killAsleep (fun s => s.k.killed 0 && !s.k.killing 0) = true
  timely : Machine.Along cpus (fun s l => l.timely s = true) two killAsleep

/-- The schedules are run in one place, for all the results below. -/
theorem reached : Reached := by
  rw [reached_iff]
  decide +kernel

section Runs

variable [DecidableEq C] {cond : Nat → Bool} {pipe : Nat → Pipe} {cons : Cons} {s : Sys n C} {ls : List (Act C)}

/-! ### Stacks -/

/-- **No process runs on two CPUs, and no running process is freed.** -/
theorem one_cpu_each (h : Machine.Run cpus (boot cond pipe cons) ls s) :
    (∀ c c' p, s.cur c = some p → s.cur c' = some p → c = c') ∧
    (∀ p, s.lock (.proc p) = none → (s.k.state p = .running ↔ ∃ c, s.cproc c = some p)) ∧
    (∀ c np, nextOp s c = some (.freemem np) → ∀ c', s.cur c' ≠ some np) := by
  obtain ⟨G, a, hp, hc⟩ := inv_run h
  exact ⟨hp.stack.inj, fun p hl => hp.running_iff hl, fun c np ho => hp.freemem_off hc ho⟩

variable {o : Option (Op n)}

omit [NeZero n] in
theorem frees_eq {q : Fin n} (h : frees q o = true) : o = some (.freemem q) := by
  unfold frees at h
  split at h
  · rw [of_decide_eq_true h]
  · cases h

/-- The parent of a child that has just exited frees it. -/
theorem one_cpu_each_exited : ∃ s, Machine.Run cpus two exited s ∧ nextOp s 0 = some (.freemem 1) ∧
    ∀ c', s.cur c' ≠ some 1 := by
  obtain ⟨s, hr, hs⟩ := run_of_passes (Reached.freed reached)
  have ho := frees_eq (Bool.and_eq_true_iff.mp hs).1
  exact ⟨s, hr, ho, (one_cpu_each hr).2.2 0 1 ho⟩

/-! ### Spin locks -/

/-- **No wakeup is lost.** -/
theorem no_lost_wakeup (h : Machine.Run cpus (boot cond pipe cons) ls s) :
    (∀ i, s.lock (.cond i) = none → s.k.cond i = true →
      ∀ p, ¬ (s.k.state p = .sleeping ∧ s.k.chan p = some (.cond i))) ∧
    (∀ c i, nextOp s c = some (.woken i) → s.lock (.cond i) = some c) := by
  obtain ⟨G, a, hp, hc⟩ := inv_run h
  refine ⟨fun i hl hi p hs => hp.chans.cond i p hl hi (.inl hs), fun c i ho => ?_⟩
  obtain ⟨f, hi, -⟩ := hc.next ho
  exact (hp.locks.held c _).mp hi

omit [NeZero n] in
theorem returnsFrom_eq {i : Nat} (h : returnsFrom i o = true) : o = some (.woken i) := by
  unfold returnsFrom at h
  split at h
  · rw [of_decide_eq_true h]
  · cases h

theorem no_lost_wakeup_awoken : ∃ s, Machine.Run cpus two awoken s ∧ nextOp s 0 = some (.woken 0) ∧
    s.lock (.cond 0) = some 0 := by
  obtain ⟨s, hr, hs⟩ := run_of_passes (Reached.woken reached)
  have ho := returnsFrom_eq hs
  exact ⟨s, hr, ho, (no_lost_wakeup hr).2 0 0 ho⟩

/-! ### Exit and wait -/

/-- The process is in the table and has started. -/
def PState.started : PState → Bool
  | .unused | .used => false
  | _ => true

/-- **Exit statuses are neither lost nor delivered twice.** -/
theorem statuses_delivered (h : Machine.Run cpus (boot cond pipe cons) ls s) :
    -- whoever has started, init apart, has a parent that can wait for it, and is not kept waiting
    (s.lock .wait = none →
      (∀ q, q ≠ initproc → (s.k.state q).started = true →
        ∃ r, s.k.parent q = some r ∧ s.k.state r ≠ .unused ∧ s.k.state r ≠ .zombie) ∧
      (∀ q r, s.k.state q = .zombie → s.k.parent q = some r →
        ¬ (s.k.state r = .sleeping ∧ s.k.chan r = some (.proc r)))) ∧
    -- what is collected is a ZOMBIE child of the caller, whose status has been stored
    (∀ c p addr q pid status, nextOp s c = some (.note (.waited p addr q pid status)) →
      s.cur c = some p ∧ s.k.parent q = some p ∧ s.k.state q = .zombie ∧ s.k.pid q = pid ∧ s.k.xstate q = status ∧
        (addr ≠ 0 → lastStored p s.k.log = some (addr, status))) ∧
    -- a call of wait returns the pid of the child that it has collected, or it has collected none
    (∀ c p addr v, s.cur c = some p → rest s (s.thr c) = .ret (.sysret v) → calling p s.k.log = some (.wait addr) →
      v = -1 ∧ result p s.k.log = none ∨ result p s.k.log = some v) ∧
    -- a process that has exited is collected once before its slot is free again, and stays until then
    (∀ q, life q s.k.log ≠ none) ∧ (∀ q, s.lock (.proc q) = none → Settled s.k q) ∧
    (∀ l s', cpus s l = .ok s' → s.k.log <:+ s'.k.log) := by
  obtain ⟨G, a, hp, hc⟩ := inv_run h
  refine ⟨fun hl => ⟨fun q hq hst => ?_, fun q r hz hr hs => ?_⟩, fun c p addr q pid status ho => ?_,
    fun c p addr v hcur hrest hcall => ?_, hp.life.order, hp.life.settled, fun l s' hstep => cpus_log hstep⟩
  · have hpar : s.k.parent q ≠ none := by
      have hst' : (s.k.state q).alive = true ∨ s.k.state q = .zombie := by
        cases hq' : s.k.state q <;> rw [hq'] at hst <;> first | exact .inr rfl | exact .inl rfl | cases hst
      rcases hp.kin.parent q hq hst' with hpar | ⟨-, hw⟩
      · exact hpar
      · exact absurd hl hw
    obtain ⟨r, hr⟩ := Option.ne_none_iff_exists'.mp hpar
    have hal := hp.kin.alive q r hr
    refine ⟨r, hr, fun hst => ?_, fun hst => ?_⟩ <;> rw [hst] at hal <;> cases hal
  · exact (hp.kin.zombie q r hz hr (.inl hs)).1 hl
  · obtain ⟨f, g, hn, -⟩ := hc.next ho
    cases hn with
    | waited _ _ _ _ _ hself _ _ hpar hst hpid hx _ hstore => exact ⟨hself, hpar, hst, hpid, hx, hstore⟩
  · exact (hc.done hrest).2.2 p addr hcur hcall

omit [NeZero n] in
theorem gives_eq {v : Int32} {x : KProg n (Next n)} (h : gives v x = true) : x = .ret (.sysret v) := by
  unfold gives at h
  split at h
  · rw [of_decide_eq_true h]
  · cases h

/-- When the child has been freed and the locks are released, its slot is free. -/
theorem statuses_delivered_exited : ∃ s, Machine.Run cpus two (exited ++ steps 0 9) s ∧
    rest s (s.thr 0) = .ret (.sysret 2) ∧ result 0 s.k.log = some 2 ∧ s.k.state 1 = .unused ∧ Settled s.k 1 := by
  obtain ⟨s, hr, hs⟩ := run_of_passes (Reached.collected reached)
  obtain ⟨hs, hs'⟩ := Bool.and_eq_true_iff.mp hs
  simp only [Bool.and_eq_true, decide_eq_true_eq] at hs'
  obtain ⟨⟨⟨hcur, hcall⟩, hl⟩, hst⟩ := hs'
  have hrest := gives_eq hs
  obtain ⟨-, -, hret, -, hset, -⟩ := statuses_delivered hr
  refine ⟨s, hr, hrest, ?_, hst, hset 1 hl⟩
  rcases hret 0 0 64 2 hcur hrest hcall with ⟨hne, -⟩ | hres
  · exact absurd hne (by decide)
  · exact hres

/-! ### Kill -/

/-- **`kill` only reaches the process that it names**, if it names one. -/
theorem kill_named (h : Machine.Along cpus (fun _ l => l.named = true) (boot cond pipe cons : Sys n C) ls)
    (ho : outcome cpus (boot cond pipe cons) ls = .ok s) (q : Fin n) :
    (s.k.state q = .unused → s.k.killed q = false) ∧ (s.k.killed q = true → Blamed q s.k.log) := by
  obtain ⟨G, a, hp, -⟩ := inv_run_named h ho
  refine ⟨fun hst => ?_, fun hk => (hp.kills.blamed trivial q hk).2⟩
  by_contra hk
  exact (hp.kills.blamed trivial q (by simpa using hk)).1 hst

theorem kill_named_child : ∃ s, outcome cpus two killChild = .ok s ∧ s.k.killed 1 = true ∧ Blamed 1 s.k.log := by
  have hpass := Reached.killed reached
  rw [passes] at hpass
  split at hpass
  · rename_i s ho
    exact ⟨s, ho, hpass, (kill_named (Reached.named reached) ho 1).2 hpass⟩
  · cases hpass

/-- **`kill(0)` marks an UNUSED slot**, and the next process that gets the slot is marked from the start. -/
theorem killZero_marks : (∃ s, Machine.Run cpus two killZero s ∧ s.k.state 1 = .unused ∧ s.k.killed 1 = true) ∧
    ∃ s, Machine.Run cpus two (killZero ++ .call 0 .fork :: steps 0 30) s ∧ s.k.state 1 = .runnable ∧
      s.k.pid 1 = 2 ∧ s.k.killed 1 = true ∧ Event.killed 1 2 ∉ s.k.log ∧ Event.trapped 1 ∉ s.k.log := by
  constructor
  · obtain ⟨s, hr, hs⟩ := run_of_passes (Reached.marked reached)
    simp only [Bool.and_eq_true, decide_eq_true_eq] at hs
    exact ⟨s, hr, hs⟩
  · obtain ⟨s, hr, hs⟩ := run_of_passes (Reached.inherited reached)
    simp only [Bool.and_eq_true, decide_eq_true_eq] at hs
    exact ⟨s, hr, hs⟩

/-- **No kill is missed**, if none falls between the test and the sleep. -/
theorem kill_not_missed (h : Machine.Along cpus (fun s l => l.timely s = true) (boot cond pipe cons : Sys n C) ls)
    (ho : outcome cpus (boot cond pipe cons) ls = .ok s) (p : Fin n) (ch : Chan n) (hkl : killable ch = true) :
    ¬ (s.k.killing p = false ∧ s.k.killed p = true ∧ s.k.state p = .sleeping ∧ s.k.chan p = some ch) := by
  rintro ⟨hki, hk, hst, hch⟩
  obtain ⟨G, a, hp, -⟩ := inv_run_timely h ho
  obtain ⟨c, -, -, hki'⟩ := hp.kills.wakes trivial p ch hst hch hkl hk
  exact absurd (hki.symm.trans hki') Bool.false_ne_true

/-- **A kill is missed**: it has returned, and the process is asleep. -/
theorem killLate_missed : ∃ s, Machine.Run cpus two killLate s ∧ inUser s 1 = true ∧ s.lock (.proc 0) = none ∧
    s.k.killing 0 = false ∧ s.k.killed 0 = true ∧ s.k.state 0 = .sleeping ∧ s.k.chan 0 = some (.pipeRead 0) := by
  obtain ⟨s, hr, hs⟩ := run_of_passes (Reached.missed reached)
  simp only [Bool.and_eq_true, decide_eq_true_eq, Bool.not_eq_true'] at hs
  exact ⟨s, hr, hs⟩

theorem kill_not_missed_asleep : ∃ s, outcome cpus two killAsleep = .ok s ∧ s.k.killed 0 = true ∧
    ¬ (s.k.state 0 = .sleeping ∧ s.k.chan 0 = some (.pipeRead 0)) := by
  have hpass := Reached.heard reached
  rw [passes] at hpass
  split at hpass
  · rename_i s ho
    obtain ⟨hk, hki⟩ := Bool.and_eq_true_iff.mp hpass
    refine ⟨s, ho, hk, fun hs => ?_⟩
    exact kill_not_missed (Reached.timely reached) ho 0 (.pipeRead 0) rfl ⟨by simpa using hki, hk, hs⟩
  · cases hpass

end Runs

end Xv6.Sched
