/-
Xv6/VmTable.lean

User page tables as radix trees, and what single calls do to them.

The words of the page-table pages are the heap of a radix tree of level 2
(`Table`), which maps page numbers to entries.  Who may write where is a matter of
ownership: `Sep s A` says that the free pages and the pages `A` are all different,
and `Did s s' A A'` that pages only move between the free list and what one owns,
and that the memory of all others stays as it is.
-/
import Xv6.Vm

namespace Xv6.Vm

open Radix Function

/-! ### Looking up -/

/-- The entry for a virtual address that `walk` finds; 0 if there is none. -/
def lookup (s : Ram) (pagetable va : Nat) : Nat :=
  match (walkFrom false va 2 s pagetable).1 with
  | none => 0
  | some (t, i) => s.pte t i

theorem pgrounddown_div (a : Nat) : pgrounddown a / PGSIZE = a / PGSIZE :=
  Nat.mul_div_cancel _ (show 0 < PGSIZE by decide)

variable {a b pg perm : Nat}

/-- An index depends on the page only. -/
theorem px_page (level : Nat) (h : a / PGSIZE = b / PGSIZE) : px level a = px level b := by
  have hdiv : ∀ a, a / 2 ^ (12 + 9 * level) = a / PGSIZE / 2 ^ (9 * level) := fun a => by
    rw [pow_add, ← Nat.div_div_eq_div_mul]
    rfl
  apply Fin.ext
  show a / 2 ^ (12 + 9 * level) % 512 = b / 2 ^ (12 + 9 * level) % 512
  rw [hdiv, hdiv, h]

theorem walkFrom_page (alloc : Bool) (h : a / PGSIZE = b / PGSIZE) (level : Nat) (s : Ram) (t : Nat) :
    walkFrom alloc a level s t = walkFrom alloc b level s t := by
  induction level generalizing s t with
  | zero => rw [walkFrom, walkFrom, px_page 0 h]
  | succ level ih => simp only [walkFrom, px_page (level + 1) h, ih]

theorem lookup_page (s : Ram) (pagetable : Nat) (h : a / PGSIZE = b / PGSIZE) :
    lookup s pagetable a = lookup s pagetable b := by
  unfold lookup
  rw [walkFrom_page false h]

/-! ### Entries -/

/-- The entry for a page. -/
def mkpte (pg perm : Nat) : Nat := pa2pte pg ||| perm ||| PTE_V

theorem has_mkpte (pg perm : Nat) (hb : b < 1024) : has (mkpte pg perm) b = has (perm ||| PTE_V) b := by
  have hzero : pg <<< 10 &&& b = 0 := by
    apply Nat.eq_of_testBit_eq
    intro i
    rw [Nat.testBit_and, Nat.testBit_shiftLeft, Nat.zero_testBit]
    by_cases hi : 10 ≤ i
    · have hbit : b.testBit i = false :=
        Nat.testBit_lt_two_pow (hb.trans_le (Nat.pow_le_pow_right (n := 2) (by decide) hi))
      rw [hbit, Bool.and_false]
    · simp [hi]
  rw [has, has, mkpte, pa2pte, Nat.or_assoc, Nat.and_or_distrib_right, hzero, Nat.zero_or]

theorem pte2pa_mkpte (hpg : pg < 2 ^ 52) (hperm : perm < 1024) : pte2pa (mkpte pg perm) = pg := by
  have h₁ : perm >>> 10 = 0 := by
    rw [Nat.shiftRight_eq_div_pow]
    exact Nat.div_eq_of_lt hperm
  have h₂ : PTE_V >>> 10 = 0 := rfl
  rw [pte2pa, mkpte, pa2pte, Nat.shiftRight_or_distrib, Nat.shiftRight_or_distrib, h₁, h₂, Nat.or_zero, Nat.or_zero,
    Nat.shiftLeft_shiftRight, Nat.mod_eq_of_lt hpg]

theorem mkpte_flags (pg perm : Nat) : pteFlags (mkpte pg perm) = pteFlags (perm ||| PTE_V) := by
  have hz : pg <<< 10 % 2 ^ 10 = 0 := by
    rw [Nat.shiftLeft_eq, Nat.mul_mod_left]
  rw [pteFlags, pteFlags, mkpte, pa2pte, Nat.or_assoc, show (1024 : Nat) = 2 ^ 10 from rfl, Nat.or_mod_two_pow, hz,
    Nat.zero_or]

theorem mkpte_lt (hpg : pg < 2 ^ 52) (hperm : perm < 1024) : mkpte pg perm < 256 ^ 8 := by
  have h₁ : pg <<< 10 < 2 ^ 64 := by
    omega
  have h₂ : perm < 2 ^ 64 := by omega
  exact Nat.or_lt_two_pow (Nat.or_lt_two_pow h₁ h₂) (by decide)

theorem has_mkpte_valid (pg perm : Nat) : has (mkpte pg perm) PTE_V = true := by
  have hv : (perm ||| PTE_V) &&& PTE_V = PTE_V := by
    apply Nat.eq_of_testBit_eq
    intro i
    simp only [Nat.testBit_or, Nat.testBit_and]
    cases PTE_V.testBit i <;> simp
  rw [has_mkpte pg perm (by decide), has, hv]
  rfl

/-- The page that an entry points to, as `walk` reads it. -/
def child (pte : Nat) : Option Nat := if has pte PTE_V then some (pte2pa pte) else none

theorem child_zero : child 0 = none := rfl

/-- The entry for a page-table page. -/
def ptr (pg : Nat) : Nat := pa2pte pg ||| PTE_V

theorem ptr_eq (pg : Nat) : ptr pg = mkpte pg 0 := by rw [ptr, mkpte, Nat.or_zero]

theorem child_ptr (hpg : pg < 2 ^ 52) : child (ptr pg) = some pg := by
  rw [ptr_eq, child, has_mkpte_valid, pte2pa_mkpte hpg (by decide)]
  rfl

/-! ### Ownership -/

/-- The free pages. -/
def Ram.free (s : Ram) : Multiset Nat := s.freelist

/-- **Pages have moved** between the free list and what one owns, and nothing else has changed. -/
structure Did (s s' : Ram) (A A' : Multiset Nat) : Prop where
  pages : s'.free + A' = s.free + A
  mem : ∀ pg, pg ∉ s.free + A → s'.mem pg = s.mem pg
  first : s'.first = s.first

section Ownership

variable {s s' s'' : Ram} {A A' A'' B : Multiset Nat} {pg : Nat}

theorem Did.refl (s : Ram) (A : Multiset Nat) : Did s s A A := ⟨rfl, fun _ _ => rfl, rfl⟩

theorem Did.trans (h : Did s s' A A') (h' : Did s' s'' A' A'') : Did s s'' A A'' where
  pages := h'.pages.trans h.pages
  mem pg hpg := by
    rw [h'.mem pg (h.pages ▸ hpg), h.mem pg hpg]
  first := h'.first.trans h.first

/-- What else one owns stays as it is. -/
theorem Did.frame (h : Did s s' A A') (B : Multiset Nat) : Did s s' (A + B) (A' + B) where
  pages := by rw [← add_assoc, ← add_assoc, h.pages]
  mem pg hpg := by
    rw [← add_assoc, Multiset.mem_add, not_or] at hpg
    exact h.mem pg hpg.1
  first := h.first

theorem Did.setPage (hpg : pg ∈ A) (b : Bytes PGSIZE) : Did s (s.setPage pg b) A A where
  pages := rfl
  mem pg' hpg' := by
    refine update_of_ne ?_ ..
    rintro rfl
    exact hpg' (Multiset.mem_add.mpr (.inr hpg))
  first := rfl

/-- **`kalloc`** takes a page from the free list, if it finds one. -/
theorem kalloc_spec (s : Ram) : (∃ s', kalloc s = (none, s') ∧ s'.mem = s.mem ∧ Did s s' 0 0) ∨
    ∃ pg s', kalloc s = (some pg, s') ∧ pg ∈ s.free ∧ (∀ pg', pg' ≠ pg → s'.mem pg' = s.mem pg') ∧
      Did s s' 0 {pg} := by
  rw [kalloc]
  split
  · exact .inl ⟨_, rfl, rfl, rfl, fun _ _ => rfl, rfl⟩
  rcases hfree : s.freelist with _ | ⟨pg, rest⟩
  · exact .inl ⟨_, rfl, rfl, by simp [Ram.free, hfree], fun _ _ => rfl, rfl⟩
  have hs : s.free = {pg} + (rest : Multiset Nat) := by
    rw [Ram.free, hfree]
    rfl
  refine .inr ⟨pg, _, rfl, ?_, fun pg' hpg' => update_of_ne hpg' .., ?_, fun pg' hpg' => ?_, rfl⟩
  · rw [hs]
    exact Multiset.mem_add.mpr (.inl (Multiset.mem_singleton_self pg))
  · rw [hs, add_zero, add_comm]
    rfl
  refine update_of_ne ?_ ..
  rintro rfl
  rw [hs] at hpg'
  exact hpg' (by simp)

/-- **`kfree`** puts a page back. -/
theorem kfree_ok (h₁ : s.first ≤ pg) (h₂ : pg < LASTPAGE) : ∃ s', kfree s pg = .ok s' ∧
    (∀ pg', pg' ≠ pg → s'.mem pg' = s.mem pg') ∧ Did s s' {pg} 0 := by
  rw [kfree, if_neg (by omega)]
  refine ⟨_, rfl, fun pg' hpg' => update_of_ne hpg' .., ?_, fun pg' hpg' => ?_, rfl⟩
  · rw [add_zero, add_comm]
    rfl
  · refine update_of_ne ?_ ..
    rintro rfl
    exact hpg' (by simp)

end Ownership

/-! ### A table that maps itself -/

/-- A page-table page with two entries. -/
def tablePage (i v j w : Nat) : Bytes PGSIZE := (Bytes.zero.writeLE (8 * i) 8 v).writeLE (8 * j) 8 w

/-- The table of page 10, whose page for the low addresses, 12, is itself mapped for the user. -/
def selfMapped : Ram where
  mem pg :=
    if pg = 10 then tablePage 0 (mkpte 11 0) 1 0
    else if pg = 11 then tablePage 0 (mkpte 12 0) 1 0
    else if pg = 12 then tablePage 510 (mkpte 12 (PTE_R ||| PTE_W ||| PTE_U)) 511 (mkpte 13 (PTE_R ||| PTE_W ||| PTE_U))
    else Bytes.zero
  freelist := []
  first := 10
  refuse _ := false
  calls := 0

end Xv6.Vm
