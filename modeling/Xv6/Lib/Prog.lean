/-
Xv6/Lib/Prog.lean

Programs over operations that somebody else carries out.

A `Prog Op Resp α` issues operations `o : Op`, goes on with what comes back, a
`Resp o`, and returns an `α`.  It fixes nothing about what the operations do, so
that one text of a program is run alone on a state, interleaved with others one
operation at a time, and reasoned about.

* `run exec p s` carries a program out alone.
* `wp Φ p m Q` folds a specification `Φ` of the operations, a predicate
  transformer on states `M`, over the program: started in `m`, it ends in a
  state and with a result of which `Q` holds.  `M` need not be the state of the
  machine.  A specification may speak of an abstraction of it, such as what a
  program owns.
* `wp_run` is soundness: if the operations meet `Φ` as seen through a relation
  between states and their abstractions, so do programs.  `run_of_wp` is the
  case in which the specification is what the operations do.
* `ends_of_wp` is the case of operations that may fail, in ways that the specification allows.
* `of_passes` is soundness for what holds in every state that a run goes through, whether it
  comes to its end or not.
-/
import Xv6.Lib.Machine

namespace Xv6

/-- A program that issues operations and goes on with the responses. -/
inductive Prog (Op : Type) (Resp : Op → Type) (α : Type) : Type
  | ret (a : α) : Prog Op Resp α
  | call (o : Op) (k : Resp o → Prog Op Resp α) : Prog Op Resp α

namespace Prog

variable {Op : Type} {Resp : Op → Type} {α β : Type}

/-- Sequencing. -/
def bind : Prog Op Resp α → (α → Prog Op Resp β) → Prog Op Resp β
  | ret a, f => f a
  | call o k, f => call o fun r => (k r).bind f

instance : Monad (Prog Op Resp) where
  pure := ret
  bind := bind

/-- The program that issues one operation. -/
def op (o : Op) : Prog Op Resp (Resp o) := call o ret

/-! ### Carrying a program out alone -/

section Run

variable {S : Type}

/-- Carry a program out: each operation takes effect before the next is issued. -/
def run (exec : S → (o : Op) → Outcome (S × Resp o)) : Prog Op Resp α → S → Outcome (S × α)
  | ret a, s => .ok (s, a)
  | call o k, s =>
    match exec s o with
    | .ok (s', r) => run exec (k r) s'
    | .blocked => .blocked
    | .panic msg => .panic msg

end Run

/-! ### Specifications -/

/-- What an operation is to establish, as a predicate transformer on states `M`. -/
abbrev Spec (Op : Type) (Resp : Op → Type) (M : Type) : Type :=
  (o : Op) → M → (Resp o → M → Prop) → Prop

section Wp

variable {M : Type} {Φ : Spec Op Resp M}

/-- Started in `m`, the program ends with a result and in a state of which `Q` holds. -/
def wp (Φ : Spec Op Resp M) : Prog Op Resp α → M → (α → M → Prop) → Prop
  | ret a, m, Q => Q a m
  | call o k, m, Q => Φ o m fun r m' => (k r).wp Φ m' Q

@[simp] theorem wp_ret (a : α) (m : M) (Q : α → M → Prop) :
    (ret a : Prog Op Resp α).wp Φ m Q ↔ Q a m := Iff.rfl

@[simp] theorem wp_pure (a : α) (m : M) (Q : α → M → Prop) :
    (pure a : Prog Op Resp α).wp Φ m Q ↔ Q a m := Iff.rfl

@[simp] theorem wp_bind (p : Prog Op Resp α) (f : α → Prog Op Resp β) (m : M) (Q : β → M → Prop) :
    (p >>= f).wp Φ m Q ↔ p.wp Φ m fun a m' => (f a).wp Φ m' Q := by
  induction p generalizing m with
  | ret a => exact Iff.rfl
  | call o k ih =>
    have hk : (fun r m' => ((k r).bind f).wp Φ m' Q)
        = fun r m' => (k r).wp Φ m' fun a m'' => (f a).wp Φ m'' Q := by
      funext r m'
      exact propext (ih r m')
    show Φ o m (fun r m' => ((k r).bind f).wp Φ m' Q) ↔ _
    rw [hk]
    exact Iff.rfl

/-- Specifications that ask for no more when less is to be established. -/
def Spec.Mono (Φ : Spec Op Resp M) : Prop :=
  ∀ (o : Op) (m : M) {Q Q' : Resp o → M → Prop}, (∀ r m', Q r m' → Q' r m') → Φ o m Q → Φ o m Q'

theorem wp_mono (hΦ : Spec.Mono Φ) {p : Prog Op Resp α} {m : M} {Q Q' : α → M → Prop}
    (h : p.wp Φ m Q) (hQ : ∀ a m', Q a m' → Q' a m') : p.wp Φ m Q' := by
  induction p generalizing m with
  | ret a => exact hQ a m h
  | call o k ih => exact hΦ o m (fun r m' hr => ih r hr) h

end Wp

/-! ### Soundness -/

section Soundness

variable {S M : Type}

/-- The operations meet `Φ`, as seen through the relation `R`: they are carried out, or they panic where
`E` allows it. -/
def Meets (exec : S → (o : Op) → Outcome (S × Resp o)) (R : S → M → Prop) (Φ : Spec Op Resp M)
    (E : Prop) : Prop :=
  ∀ (s : S) (m : M) (o : Op) (Q : Resp o → M → Prop), R s m → Φ o m Q →
    (∃ s' r m', exec s o = .ok (s', r) ∧ R s' m' ∧ Q r m') ∨ E ∧ ∃ msg, exec s o = .panic msg

variable {exec : S → (o : Op) → Outcome (S × Resp o)} {p : Prog Op Resp α} {s : S}

/-- **Soundness.**  Programs meet a specification that the operations meet. -/
theorem wp_run {R : S → M → Prop} {Φ : Spec Op Resp M} {E : Prop}
    (hΦ : Meets exec R Φ E) {m : M} {Q : α → M → Prop} (hR : R s m)
    (hwp : p.wp Φ m Q) :
    (∃ s' a m', p.run exec s = .ok (s', a) ∧ R s' m' ∧ Q a m') ∨ E ∧ ∃ msg, p.run exec s = .panic msg := by
  induction p generalizing s m with
  | ret b => exact .inl ⟨s, b, m, rfl, hR, hwp⟩
  | call o k ih =>
    rcases hΦ s m o _ hR hwp with ⟨s₁, r, m₁, he, hR₁, hQ₁⟩ | ⟨hE, msg, he⟩
    · rw [run, he]
      exact ih r hR₁ hQ₁
    · rw [run, he]
      exact .inr ⟨hE, msg, rfl⟩

/-- The specification of operations that says what `exec` does. -/
def Does (exec : S → (o : Op) → Outcome (S × Resp o)) : Spec Op Resp S := fun o s Q =>
  ∃ s' r, exec s o = .ok (s', r) ∧ Q r s'

theorem does_mono (exec : S → (o : Op) → Outcome (S × Resp o)) : Spec.Mono (Does exec) := by
  rintro o s Q Q' hQ ⟨s', r, he, hr⟩
  exact ⟨s', r, he, hQ r s' hr⟩

variable {Q : α → S → Prop}

theorem run_of_wp
    (h : p.wp (Does exec) s Q) : ∃ s' a, p.run exec s = .ok (s', a) ∧ Q a s' := by
  have hmeets : Meets exec Eq (Does exec) False := by
    rintro s m o Q rfl ⟨s', r, he, hQ⟩
    exact .inl ⟨s', r, s', he, rfl, hQ⟩
  obtain ⟨s', a, m', hrun, rfl, hQ⟩ | ⟨hfalse, -⟩ := wp_run hmeets rfl h
  · exact ⟨s', a, hrun, hQ⟩
  · exact hfalse.elim

/-- What happens ends with a result in `Q`, or in a failure that `E` allows: `none` when it has to wait, or the
message of a panic. -/
def Ends (E : Option String → Prop) (Q : α → S → Prop) : Outcome (S × α) → Prop
  | .ok x => Q x.2 x.1
  | .blocked => E none
  | .panic msg => E (some msg)

theorem ends_of_wp {E : Option String → Prop}
    (h : p.wp (fun o s Q => Ends E Q (exec s o)) s Q) : Ends E Q (p.run exec s) := by
  induction p generalizing s with
  | ret a => exact h
  | call o k ih =>
    replace h : Ends E (fun r s' => (k r).wp _ s' Q) (exec s o) := h
    rw [run]
    rcases he : exec s o with ⟨s', r⟩ | - | msg
    · rw [he] at h
      exact ih r h
    · rwa [he] at h
    · rwa [he] at h

/-- The run of a program from `s` goes through the state `t`. -/
inductive Passes (exec : S → (o : Op) → Outcome (S × Resp o)) : Prog Op Resp α → S → S → Prop
  | here (p : Prog Op Resp α) (s : S) : Passes exec p s s
  | next {o : Op} {k : Resp o → Prog Op Resp α} {s s' t : S} {r : Resp o} (he : exec s o = .ok (s', r))
      (h : Passes exec (k r) s' t) : Passes exec (.call o k) s t

/-- The specification of operations that says what they do when they are carried out, and that `I` holds
then. -/
def Throughout (I : S → Prop) (exec : S → (o : Op) → Outcome (S × Resp o)) : Spec Op Resp S := fun o s Q =>
  ∀ s' r, exec s o = .ok (s', r) → I s' ∧ Q r s'

theorem throughout_mono (I : S → Prop) (exec : S → (o : Op) → Outcome (S × Resp o)) :
    Spec.Mono (Throughout I exec) := by
  intro o s Q Q' hQ h s' r he
  exact ⟨(h s' r he).1, hQ r s' (h s' r he).2⟩

theorem of_passes {I : S → Prop} {t : S}
    (h : p.wp (Throughout I exec) s Q) (hs : I s) (ht : Passes exec p s t) : I t := by
  induction ht with
  | here => exact hs
  | next he _ ih => exact ih (h _ _ he).2 (h _ _ he).1

end Soundness

end Prog

/-- Fuel that exceeds something is not used up. -/
theorem fuel_succ {k fuel : Nat} (h : k < fuel) : ∃ f, fuel = f + 1 :=
  Nat.exists_eq_succ_of_ne_zero (Nat.ne_zero_of_lt h)

end Xv6
