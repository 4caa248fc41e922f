/-
Xv6/Lib/Machine.lean

Machines that take labelled steps and may panic.

A machine is a step function into three outcomes: the step is taken, the step
is not possible in this state (`blocked`), or it stops the system with a
message (`panic`).  A schedule is a list of labels; nothing is assumed about
how it was chosen, so a statement about every schedule is a statement about
every interleaving of whoever issues the labels.

* `Run M s ls s'` — the schedule `ls` leads from `s` to `s'`;
* `outcome M s ls` — what executing `ls` comes to, panics included;
* `Along M Q s ls` — `Q` holds at every step that executing `ls` takes;
* `trace M obs s ls` — what an observer sees of it.

`Run.invariant` is the induction rule: what holds initially and is kept by
every step holds in every state of every run.  `outcome_refines` is the
simulation rule: every trace is one that a specification takes.
-/
import Mathlib.Algebra.BigOperators.Fin
import Mathlib.Data.Fintype.BigOperators
import Mathlib.Tactic

namespace Xv6

open Function Finset

/-- The outcome of a step. -/
inductive Outcome (σ : Type*) : Type _
  | ok (s : σ) : Outcome σ
  | blocked : Outcome σ
  | panic (msg : String) : Outcome σ
  deriving DecidableEq

/-- The same outcome, on what states stand for. -/
def Outcome.map {σ τ : Type*} (f : σ → τ) : Outcome σ → Outcome τ
  | .ok s => .ok (f s)
  | .blocked => .blocked
  | .panic msg => .panic msg

def Outcome.isOk {σ : Type*} : Outcome σ → Bool
  | .ok _ => true
  | _ => false

/-- The names of two threads, in the runs of two. -/
instance instNeZeroTwo : NeZero 2 := ⟨two_ne_zero⟩

/-- A step function on states `S` with labels `L`. -/
abbrev Machine (S L : Type*) := S → L → Outcome S

namespace Machine

variable {S L : Type*} (M : Machine S L)

/-- The schedule `ls` leads from `s` to `s'`, every step being taken. -/
inductive Run : S → List L → S → Prop
  | nil (s : S) : Run s [] s
  | snoc {s s' s'' : S} {ls : List L} {l : L} :
      Run s ls s' → M s' l = .ok s'' → Run s (ls ++ [l]) s''

/-- What executing a schedule comes to. -/
@[simp] def outcome : S → List L → Outcome S
  | s, [] => .ok s
  | s, l :: ls =>
    match M s l with
    | .ok s' => outcome s' ls
    | .blocked => .blocked
    | .panic msg => .panic msg

/-- `Q` holds at every step that executing the schedule takes, the last one,
which may panic, included. -/
@[simp] def Along (Q : S → L → Prop) : S → List L → Prop
  | _, [] => True
  | s, l :: ls => Q s l ∧
      match M s l with
      | .ok s' => Along Q s' ls
      | _ => True

instance Along.decidable (Q : S → L → Prop) [∀ s l, Decidable (Q s l)] :
    ∀ (s : S) (ls : List L), Decidable (Along M Q s ls)
  | _, [] => isTrue trivial
  | s, l :: ls =>
    let rest : Decidable (match M s l with
        | .ok s' => Along M Q s' ls
        | _ => True) :=
      match M s l with
      | .ok s' => Along.decidable Q s' ls
      | .blocked => isTrue trivial
      | .panic _ => isTrue trivial
    @instDecidableAnd _ _ inferInstance rest

variable {M} {l : L} {ls : List L} {s s' : S} {I : S → Prop}

/-- **Invariant rule.**  What a state has, and every step keeps, every state of
a run from it has. -/
theorem Run.invariant (hstep : ∀ s l s', I s → M s l = .ok s' → I s') (h : Run M s ls s') (hs : I s) : I s' := by
  induction h with
  | nil => exact hs
  | snoc _ hl ih => exact hstep _ _ _ ih hl

theorem Run.cons {s'' : S} (hl : M s l = .ok s') (h : Run M s' ls s'') : Run M s (l :: ls) s'' := by
  induction h with
  | nil => exact Run.snoc (Run.nil s) hl
  | snoc _ hl' ih => exact Run.snoc ih hl'

theorem run_of_outcome (h : outcome M s ls = .ok s') : Run M s ls s' := by
  induction ls generalizing s with
  | nil =>
    obtain rfl : s = s' := by simpa [outcome] using h
    exact Run.nil s
  | cons l ls ih =>
    rcases hl : M s l with s₁ | - | msg
    · rw [outcome, hl] at h
      exact Run.cons hl (ih h)
    · rw [outcome, hl] at h; cases h
    · rw [outcome, hl] at h; cases h

variable (M) in
/-- Executing the schedule comes to a state that passes a check. -/
def passes (s : S) (ls : List L) (check : S → Bool) : Bool :=
  match outcome M s ls with
  | .ok s' => check s'
  | _ => false

theorem run_of_passes {check : S → Bool} (h : passes M s ls check = true) : ∃ s', Run M s ls s' ∧ check s' = true := by
  rw [passes] at h
  rcases ho : outcome M s ls with s' | - | msg <;> rw [ho] at h
  · exact ⟨s', run_of_outcome ho, h⟩
  · cases h
  · cases h

variable {Q : S → L → Prop}

/-- A step is taken, and then a schedule. -/
theorem Along.cons (hl : M s l = .ok s') (hq : Q s l) (h : Along M Q s' ls) : Along M Q s (l :: ls) := by
  rw [Along, hl]
  exact ⟨hq, h⟩

theorem outcome_cons (hl : M s l = .ok s') (ls : List L) : outcome M s (l :: ls) = outcome M s' ls := by
  rw [outcome, hl]

/-- **Invariant rule under a discipline.**  What a state has, and every step
that obeys `Q` keeps, holds after every schedule that obeys `Q` throughout. -/
theorem Along.invariant
    (hstep : ∀ s l s', I s → Q s l → M s l = .ok s' → I s')
    (h : Along M Q s ls) (ho : outcome M s ls = .ok s') (hs : I s) :
    I s' := by
  induction ls generalizing s with
  | nil =>
    obtain rfl : s = s' := by simpa [outcome] using ho
    exact hs
  | cons l ls ih =>
    rw [outcome] at ho
    rw [Along] at h
    rcases hl : M s l with s₁ | - | msg <;> rw [hl] at ho h
    · exact ih h.2 ho (hstep s l s₁ hs h.1 hl)
    · cases ho
    · cases ho

variable {msg : String}

/-- If, wherever the invariant `I` holds, `Q` says of a step exactly that it does
not panic with `msg`, then a schedule avoids that panic exactly when `Q` holds
along it. -/
theorem outcome_ne_panic_iff
    (hstep : ∀ s l s', I s → M s l = .ok s' → I s')
    (hQ : ∀ s l, I s → (M s l ≠ .panic msg ↔ Q s l))
    (hs : I s) (ls : List L) :
    outcome M s ls ≠ .panic msg ↔ Along M Q s ls := by
  induction ls generalizing s with
  | nil => simp [outcome, Along]
  | cons l ls ih =>
    have hq := hQ s l hs
    rw [outcome, Along]
    rcases hl : M s l with s' | - | msg'
    · -- the step is taken: the rest of the schedule decides
      rw [hl] at hq
      exact (ih (hstep s l s' hs hl)).trans ⟨fun h => ⟨hq.mp (by simp), h⟩, fun h => h.2⟩
    · rw [hl] at hq
      simpa using hq
    · rw [hl] at hq
      simpa using hq

/-- **No panic under a discipline.**  If a step that obeys `Q` does not panic with `msg` wherever
the invariant `I` holds, then a schedule that obeys `Q` throughout does not. -/
theorem Along.outcome_ne_panic
    (hstep : ∀ s l s', I s → Q s l → M s l = .ok s' → I s')
    (hQ : ∀ s l, I s → Q s l → M s l ≠ .panic msg)
    (h : Along M Q s ls) (hs : I s) : outcome M s ls ≠ .panic msg := by
  induction ls generalizing s with
  | nil => exact nofun
  | cons l ls ih =>
    rw [outcome]
    rw [Along] at h
    rcases hl : M s l with s' | - | msg' <;> rw [hl] at h
    · exact ih h.2 (hstep s l s' hs h.1 hl)
    · exact nofun
    · rintro ⟨⟩
      exact hQ s l hs h.1 hl

/-- **No panic.**  If no step panics with `msg` wherever the invariant `I` holds, then no schedule
does. -/
theorem outcome_ne_panic (hstep : ∀ s l s', I s → M s l = .ok s' → I s')
    (hno : ∀ s l, I s → M s l ≠ .panic msg) (hs : I s) (ls : List L) : outcome M s ls ≠ .panic msg := by
  induction ls generalizing s with
  | nil => exact nofun
  | cons l ls ih =>
    rw [outcome]
    rcases hl : M s l with s' | - | msg'
    · exact ih (hstep s l s' hs hl)
    · exact nofun
    · rintro ⟨⟩
      exact hno s l hs hl

/-! ### Refinement -/

section Refinement

variable {E A : Type*}

variable (M) in
/-- The events that a schedule shows to an observer. -/
def trace (obs : S → L → S → Option E) : S → List L → List E
  | _, [] => []
  | s, l :: ls =>
    match M s l with
    | .ok s' => (obs s l s').toList ++ trace obs s' ls
    | _ => []

/-- **Simulation rule.**  `N` is a specification that takes an event or refuses
it.  If every step keeps the relation `R` while the specification takes what
the step shows, then it takes the whole trace of every schedule. -/
theorem outcome_refines {obs : S → L → S → Option E} {N : A → E → Option A} {R : S → A → Prop}
    (hsim : ∀ s l s' a, R s a → M s l = .ok s' →
      ∃ a', (obs s l s').toList.foldlM N a = some a' ∧ R s' a')
    {a : A} (h : outcome M s ls = .ok s') (hs : R s a) :
    ∃ a', (trace M obs s ls).foldlM N a = some a' ∧ R s' a' := by
  induction ls generalizing s a with
  | nil =>
    obtain rfl : s = s' := by simpa [outcome] using h
    exact ⟨a, rfl, hs⟩
  | cons l ls ih =>
    rw [outcome] at h
    rw [trace]
    rcases hl : M s l with s₁ | - | msg <;> rw [hl] at h
    · obtain ⟨a₁, ha₁, hs₁⟩ := hsim s l s₁ a hs hl
      obtain ⟨a', ha', hs'⟩ := ih h hs₁
      refine ⟨a', ?_, hs'⟩
      rw [List.foldlM_append, ha₁]
      exact ha'
    · cases h
    · cases h

end Refinement

end Machine

/-! ### One lock -/

/-- The processes at a place `c` with `g c` are those that have the lock. -/
def Mutex {P C : Type*} (g : C → Bool) (pc : P → C) (lock : Option P) : Prop := ∀ p, g (pc p) = true ↔ lock = some p

namespace Mutex

variable {P C : Type*} [DecidableEq P] {g : C → Bool} {pc : P → C} {lock : Option P} {p q : P} {c : C}

section

variable (h : Mutex g pc lock)

include h

omit [DecidableEq P] in
theorem unique (hp : g (pc p) = true) (hq : g (pc q) = true) : p = q :=
  Option.some.inj (((h p).mp hp).symm.trans ((h q).mp hq))

/-- A process moves, and has the lock or does not have it as before. -/
theorem keep (hc : g c = g (pc p)) : Mutex g (update pc p c) lock := by
  intro q
  by_cases hq : q = p
  · rw [hq, update_self, hc]
    exact h p
  · rw [update_of_ne hq]
    exact h q

theorem acquire (hfree : lock = none) (hc : g c = true) : Mutex g (update pc p c) (some p) := by
  intro q
  by_cases hq : q = p
  · simp [hq, hc]
  · rw [update_of_ne hq, h q, hfree]
    simp [Ne.symm hq]

theorem release (hp : g (pc p) = true) (hc : g c = false) : Mutex g (update pc p c) none := by
  intro q
  by_cases hq : q = p
  · simp [hq, hc]
  · rw [update_of_ne hq]
    simpa using fun hgq => hq (h.unique hgq hp)

end

end Mutex

/-! ### Sums over processes -/

/-- Moving one process trades its summand. -/
theorem sum_update_trade {P C M : Type*} [Fintype P] [DecidableEq P] [AddCommMonoid M]
    (g : C → M) (f : P → C) (p : P) (c : C) :
    (∑ q, g (update f p c q)) + g (f p) = (∑ q, g (f q)) + g c := by
  have hnew : (∑ q, g (update f p c q))
      = g c + ∑ q ∈ univ.erase p, g (f q) := by
    rw [← add_sum_erase _ _ (mem_univ p), update_self]
    refine congrArg _ (sum_congr rfl fun q hq => ?_)
    rw [update_of_ne (ne_of_mem_erase hq)]
  rw [hnew, ← add_sum_erase univ (fun q => g (f q)) (mem_univ p)]
  exact add_right_comm (g c) _ _ |>.trans (by rw [add_comm (g c), add_right_comm])

end Xv6
