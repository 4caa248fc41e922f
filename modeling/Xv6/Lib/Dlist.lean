/-
Xv6/Lib/Dlist.lean

Circular doubly linked lists with a sentinel.

A cell is an element of `α`, and a pointer is an `Option α`: `none` is the
sentinel.  The links are two functions on pointers, so that a program may assign
to any of them in any order, and need not leave a list behind.

`Ring k l` says that it has: following `next` from the sentinel visits the cells
of `l` once each and comes back, and `prev` is the same way backwards.

* `Ring.push`, `Ring.drop` — what inserting at the front and taking a cell out do;
* `Ring.walk_next`, `Ring.walk_prev` — a search along the links is a search in `l`,
  from the front or from the back.
-/
import Mathlib.Data.List.Nodup
import Mathlib.Tactic

namespace Xv6.Dlist

open Function List

variable {α : Type*}

/-- The links of all cells and of the sentinel. -/
structure Links (α : Type*) where
  next : Option α → Option α
  prev : Option α → Option α

/-! ### Paths -/

/-- Following `f` from `a` visits the cells of the list and then comes to `b`. -/
def Path (f : Option α → Option α) : Option α → List α → Option α → Prop
  | a, [], b => f a = b
  | a, x :: l, b => f a = some x ∧ Path f (some x) l b

section Path

variable {f g : Option α → Option α} {a b : Option α} {x : α} {l l' : List α} {c : Option α}

theorem path_append : Path f a (l ++ x :: l') b ↔ Path f a l (some x) ∧ Path f (some x) l' b := by
  induction l generalizing a with
  | nil => exact Iff.rfl
  | cons y l ih =>
    simp only [cons_append, Path]
    rw [ih, and_assoc]

/-- A path depends on the links of the pointers it leaves. -/
theorem Path.congr (h : Path f a l b) (ha : g a = f a) (hl : ∀ x ∈ l, g (some x) = f (some x)) : Path g a l b := by
  induction l generalizing a with
  | nil => exact ha.trans h
  | cons y l ih =>
    refine ⟨ha.trans h.1, ih h.2 (hl y mem_cons_self) fun x hx => ?_⟩
    exact hl x (mem_cons_of_mem _ hx)

/-- The last link of a path is redirected. -/
theorem Path.redirect [DecidableEq α] (h : Path f a l b) (hnodup : l.Nodup) (ha : ∀ x ∈ l, a ≠ some x) :
    Path (update f ((l.getLast?).elim a some) c) a l c := by
  induction l generalizing a with
  | nil => exact update_self ..
  | cons y l ih =>
    obtain ⟨hy, hnodup⟩ := nodup_cons.mp hnodup
    have hne : ∀ x ∈ l, some y ≠ some x := fun x hx he => hy (Option.some.inj he ▸ hx)
    have hlast : ((y :: l).getLast?).elim a some = (l.getLast?).elim (some y) some := by
      rw [List.getLast?_cons]
      cases l.getLast? <;> rfl
    rw [hlast]
    refine ⟨?_, ih h.2 hnodup hne⟩
    have hsrc : a ≠ (l.getLast?).elim (some y) some := by
      rcases hl : l.getLast? with - | z
      · exact ha y mem_cons_self
      · exact ha z (mem_cons_of_mem _ (mem_of_getLast? hl))
    rw [update_of_ne hsrc]
    exact h.1

/-- Two paths, the first of which was redirected to the second, are one. -/
theorem Path.join [DecidableEq α] {d : Option α} (h : Path (update f c d) a l d)
    (hd : d = (l'.head?).elim none some) (h' : Path f (some x) l' none) (hc : ∀ y ∈ l', some y ≠ c) :
    Path (update f c d) a (l ++ l') none := by
  cases l' with
  | nil =>
    rw [append_nil]
    exact hd ▸ h
  | cons y l' =>
    refine path_append.mpr ⟨hd ▸ h, h'.2.congr ?_ fun z hz => ?_⟩
    · exact update_of_ne (hc y mem_cons_self) ..
    · exact update_of_ne (hc z (mem_cons_of_mem _ hz)) ..

theorem Path.first (h : Path f a l b) : f a = (l.head?).elim b some := by
  cases l with
  | nil => exact h
  | cons x l => exact h.1

end Path

/-! ### Rings -/

/-- **The links are a ring** through the sentinel and the cells of `l`. -/
structure Ring (k : Links α) (l : List α) : Prop where
  nodup : l.Nodup
  next : Path k.next none l none
  prev : Path k.prev none l.reverse none

namespace Ring

variable {k : Links α} {l l₁ l₂ : List α} {x : α} {a : Option α}

/-- What is in front of a cell, and behind it. -/
theorem around (h : Ring k (l₁ ++ x :: l₂)) :
    k.next (some x) = (l₂.head?).elim none some ∧ k.prev (some x) = (l₁.getLast?).elim none some := by
  have hprev := h.prev
  rw [reverse_append, reverse_cons, append_assoc, singleton_append] at hprev
  refine ⟨(path_append.mp h.next).2.first, ?_⟩
  have hfirst := (path_append.mp hprev).2.first
  rwa [List.head?_reverse] at hfirst

/-- `prev` undoes `next`. -/
theorem prev_next (h : Ring k l) (ha : ∀ x, a = some x → x ∈ l) : k.prev (k.next a) = a := by
  -- the pointer, and the cells behind it
  obtain ⟨l₁, l₂, hl, hlast, hnext⟩ : ∃ l₁ l₂, l = l₁ ++ l₂ ∧ (l₁.getLast?).elim none some = a ∧
      k.next a = (l₂.head?).elim none some := by
    rcases a with - | x
    · exact ⟨[], l, rfl, rfl, h.next.first⟩
    · obtain ⟨l₁, l₂, rfl⟩ := append_of_mem (ha x rfl)
      exact ⟨l₁ ++ [x], l₂, by simp, by simp, h.around.1⟩
  rw [hnext]
  subst hl
  cases l₂ with
  | nil =>
    have hfirst := h.prev.first
    rw [append_nil, List.head?_reverse] at hfirst
    exact hfirst.trans hlast
  | cons y l₂ => exact h.around.2.trans hlast

theorem reverse (h : Ring k l) : Ring ⟨k.prev, k.next⟩ l.reverse :=
  ⟨nodup_reverse.mpr h.nodup, h.prev, by rw [reverse_reverse]; exact h.next⟩

/-- `next` undoes `prev`. -/
theorem next_prev (h : Ring k l) (ha : ∀ x, a = some x → x ∈ l) : k.next (k.prev a) = a :=
  h.reverse.prev_next fun x hx => mem_reverse.mpr (ha x hx)

end Ring

/-- No cells. -/
def Links.empty : Links α := ⟨fun _ => none, fun _ => none⟩

theorem Ring.empty : Ring (Links.empty : Links α) [] := ⟨nodup_nil, rfl, rfl⟩

/-! ### Assignments -/

section Update

variable [DecidableEq α]

namespace Links

def setNext (k : Links α) (a b : Option α) : Links α := { k with next := update k.next a b }

def setPrev (k : Links α) (a b : Option α) : Links α := { k with prev := update k.prev a b }

section Fields

variable (k : Links α) (a b : Option α)

@[simp] theorem setNext_next : (k.setNext a b).next = update k.next a b := rfl

@[simp] theorem setNext_prev : (k.setNext a b).prev = k.prev := rfl

@[simp] theorem setPrev_next : (k.setPrev a b).next = k.next := rfl

@[simp] theorem setPrev_prev : (k.setPrev a b).prev = update k.prev a b := rfl

end Fields

/-- Insert a cell behind the sentinel. -/
def push (k : Links α) (x : α) : Links α :=
  let k := k.setNext (some x) (k.next none)
  let k := k.setPrev (some x) none
  let k := k.setPrev (k.next none) (some x)
  k.setNext none (some x)

/-- Take a cell out. -/
def drop (k : Links α) (x : α) : Links α :=
  let k := k.setPrev (k.next (some x)) (k.prev (some x))
  k.setNext (k.prev (some x)) (k.next (some x))

end Links

variable {k : Links α} {l : List α} {x : α}

theorem Ring.push (h : Ring k l) (hx : x ∉ l) : Ring (k.push x) (x :: l) := by
  have hne : ∀ y ∈ l, some y ≠ some x := fun y hy he => hx (Option.some.inj he ▸ hy)
  refine ⟨nodup_cons.mpr ⟨hx, h.nodup⟩, ⟨by simp [Links.push], ?_⟩, ?_⟩
  · -- forwards, only the links of the sentinel and of the new cell have changed
    have hfirst : (k.push x).next (some x) = k.next none := by
      simp [Links.push]
    have hrest : ∀ y ∈ l, (k.push x).next (some y) = k.next (some y) := by
      intro y hy
      simp [Links.push, update_of_ne (hne y hy)]
    cases l with
    | nil => exact hfirst.trans h.next
    | cons y l =>
      refine ⟨hfirst.trans h.next.1, h.next.2.congr (hrest y mem_cons_self) fun z hz => ?_⟩
      exact hrest z (mem_cons_of_mem _ hz)
  · -- backwards, the cell that was first comes before the new one
    have hold : (k.push x).prev = update (update k.prev (some x) none)
        ((l.head?).elim none some) (some x) := by
      simp [Links.push, h.next.first]
    rw [reverse_cons, path_append, hold]
    constructor
    · have hpath : Path (update k.prev (some x) none) none l.reverse none := by
        refine h.prev.congr (by simp) fun y hy => ?_
        exact update_of_ne (hne y (mem_reverse.mp hy)) ..
      have hred := hpath.redirect (c := some x) (nodup_reverse.mpr h.nodup) (by simp)
      rwa [List.getLast?_reverse] at hred
    · have hsrc : some x ≠ (l.head?).elim none some := by
        rcases hl : l.head? with - | y
        · simp
        · exact (hne y (mem_of_mem_head? hl)).symm
      rw [Path, update_of_ne hsrc, update_self]

theorem Ring.drop {l₁ l₂ : List α} (h : Ring k (l₁ ++ x :: l₂)) : Ring (k.drop x) (l₁ ++ l₂) := by
  obtain ⟨hnodup, hx⟩ := nodup_middle.mp h.nodup |> nodup_cons.mp |>.symm
  obtain ⟨hnext, hprev⟩ := h.around
  have hx' : x ∉ l₁ ∧ x ∉ l₂ := by simpa using hx
  have hsplit := path_append.mp h.next
  have hback := h.prev
  rw [reverse_append, reverse_cons, append_assoc, singleton_append] at hback
  have hback := path_append.mp hback
  -- the links after both assignments
  have hprev' : (k.drop x).prev
      = update k.prev ((l₂.head?).elim none some) ((l₁.getLast?).elim none some) := by
    simp [Links.drop, hnext, hprev]
  have hkeep : (k.setPrev (k.next (some x)) (k.prev (some x))).prev (some x) = k.prev (some x) := by
    rcases hl : l₂.head? with - | y
    · simp [hnext, hl]
    have hne : some x ≠ some y := by
      rintro ⟨⟩
      exact hx'.2 (mem_of_mem_head? hl)
    simp [hnext, hl, update_of_ne hne]
  have hnext' : (k.drop x).next
      = update k.next ((l₁.getLast?).elim none some) ((l₂.head?).elim none some) := by
    rw [Links.drop, hkeep]
    simp [hnext, hprev]
  have hdisj : ∀ y ∈ l₁, ∀ z ∈ l₂, y ≠ z := (nodup_append.mp hnodup).2.2
  refine ⟨hnodup, ?_, ?_⟩
  · rw [hnext']
    have hred := hsplit.1.redirect (c := (l₂.head?).elim none some) (nodup_append.mp hnodup).1 (by simp)
    refine hred.join rfl hsplit.2 fun y hy => ?_
    rcases hl : l₁.getLast? with - | z
    · simp
    · exact fun he => hdisj z (mem_of_getLast? hl) y hy (Option.some.inj he).symm
  · rw [hprev', reverse_append]
    have hred := hback.1.redirect (c := (l₁.getLast?).elim none some)
      (nodup_reverse.mpr (nodup_append.mp hnodup).2.1) (by simp)
    rw [List.getLast?_reverse] at hred
    refine hred.join (by rw [List.head?_reverse]) hback.2 fun y hy => ?_
    rcases hl : l₂.head? with - | z
    · simp
    · exact fun he => hdisj y (mem_reverse.mp hy) z (mem_of_mem_head? hl) (Option.some.inj he)

/-- **A cell is moved to the front.** -/
theorem Ring.toFront (h : Ring k l) (hx : x ∈ l) : Ring ((k.drop x).push x) (x :: l.erase x) := by
  obtain ⟨l₁, l₂, rfl⟩ := append_of_mem hx
  have hmem := nodup_middle.mp h.nodup |> nodup_cons.mp |>.1
  have herase : (l₁ ++ x :: l₂).erase x = l₁ ++ l₂ := by
    rw [erase_append_right _ fun hx => hmem (mem_append_left _ hx), erase_cons_head]
  rw [herase]
  exact h.drop.push hmem

/-- Cells are inserted one after the other. -/
theorem Ring.pushAll (h : Ring k l) {m : List α} (hm : m.Nodup) (hdisj : ∀ x ∈ m, x ∉ l) :
    Ring (m.foldl Links.push k) (m.reverse ++ l) := by
  induction m generalizing k l with
  | nil => exact h
  | cons x m ih =>
    obtain ⟨hx, hm⟩ := nodup_cons.mp hm
    rw [foldl_cons, reverse_cons, append_assoc, singleton_append]
    refine ih (h.push (hdisj x mem_cons_self)) hm fun y hy hyl => ?_
    rcases mem_cons.mp hyl with rfl | hyl
    · exact hx hy
    · exact hdisj y (mem_cons_of_mem _ hy) hyl

end Update

/-! ### Searches -/

/-- The first cell with `p` on the way along `f` from `a` to the sentinel, among `n` cells at most. -/
def walk (f : Option α → Option α) (p : α → Bool) : Nat → Option α → Option α
  | 0, _ => none
  | _ + 1, none => none
  | n + 1, some x => if p x then some x else walk f p n (f (some x))

variable {l : List α} {n : Nat}

theorem Path.walk {f : Option α → Option α} {p : α → Bool} {a : Option α}
    (h : Path f a l none) (hn : l.length ≤ n) : walk f p n (f a) = l.find? p := by
  induction l generalizing a n with
  | nil =>
    rw [show f a = none from h]
    cases n <;> rfl
  | cons x l ih =>
    obtain ⟨m, rfl⟩ : ∃ m, n = m + 1 := ⟨n - 1, by simp at hn; omega⟩
    rw [h.1, Dlist.walk, List.find?_cons, ih h.2 (by simpa using hn)]
    cases p x <;> rfl

variable {k : Links α}

theorem Ring.walk_next (h : Ring k l) (p : α → Bool)
    (hn : l.length ≤ n) : walk k.next p n (k.next none) = l.find? p := h.next.walk hn

theorem Ring.walk_prev (h : Ring k l) (p : α → Bool)
    (hn : l.length ≤ n) : walk k.prev p n (k.prev none) = l.reverse.find? p :=
  h.prev.walk (by simpa using hn)

end Xv6.Dlist
