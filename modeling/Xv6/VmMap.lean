/-
Xv6/VmMap.lean

The page table is a map: what `walk`, `mappages` and `uvmunmap` do to it.

The words of the page-table pages are the heap of a radix tree of level 2 whose keys are
the addresses.  `entries` is the map from page numbers to entries, 0 where there is none.
`walk` grows the tree and leaves the map as it is; `mappages` and `uvmunmap` change the
map on an interval of pages, one entry in each round of their loops.
-/
import Xv6.VmTable

namespace Xv6.Vm

open Radix Function Multiset

variable {s s' s'' : Ram} {pagetable va t pg v level : Nat} {i : Fin 512}

/-! ### Entries in memory -/

theorem pte_setPage_ne (h : t ≠ pg) (b : Bytes PGSIZE) : (s.setPage pg b).pte t = s.pte t := by
  funext i
  rw [Ram.pte, Ram.pte, Ram.setPage_mem, update_of_ne h]

theorem pte_setPage_zero (s : Ram) (pg : Nat) (i : Fin 512) : (s.setPage pg (fill 0)).pte pg i = 0 := by
  rw [Ram.pte, Ram.setPage_mem, update_self]
  exact Bytes.readLE_zero ..

theorem pte_setPte (hv : v < 256 ^ 8) : (s.setPte t i v).pte = put s.pte t i v := by
  funext g j
  rcases eq_or_ne g t with rfl | hg
  · rw [Ram.setPte, Ram.pte, Ram.setPage_mem, update_self]
    by_cases hj : j = i
    · rw [hj, put_self, Bytes.readLE_writeLE_self _ (by unfold PGSIZE; omega) hv]
    · rw [put_other hj]
      rw [Bytes.readLE_writeLE_disjoint _ _ (by omega), Ram.pte]
  · rw [put_ne hg, Ram.setPte, pte_setPage_ne hg]

/-! ### The tree -/

/-- The index that an address has at each level. -/
def key (va : Nat) : Nat → Fin 512 := fun level => px level va

/-- The page-table pages. -/
def pages (s : Ram) (pagetable : Nat) : Multiset Nat := nodes child s.pte 2 pagetable

/-- Without `alloc`, `walk` only looks. -/
theorem walkFrom_find (va level : Nat) (s : Ram) (t : Nat) : walkFrom false va level s t =
    ((find child s.pte (key va) level t).map fun g => (g, px 0 va), s) := by
  induction level generalizing t with
  | zero => rfl
  | succ level ih =>
    rw [walkFrom, find, child]
    by_cases hv : has (s.pte t (px (level + 1) va)) PTE_V = true
    · rw [if_pos hv, ih, key, if_pos hv]
      rfl
    · rw [if_neg hv, key, if_neg hv]
      rfl

theorem lookup_get (s : Ram) (pagetable va : Nat) : lookup s pagetable va = Radix.get child 0 s.pte (key va) 2 pagetable := by
  rw [lookup, walkFrom_find, Radix.get]
  rcases find child s.pte (key va) 2 pagetable with - | g
  · rfl
  · rfl

/-- What `walk` does from a node on: blank pages are added, and the key leads to a page. -/
def Walked (va level t : Nat) (s : Ram) (r : Option (Nat × Fin 512) × Ram) : Prop :=
  (∃ new, Grown child 0 ptr s.pte r.2.pte level t new) ∧
    Did s r.2 (nodes child s.pte level t) (nodes child r.2.pte level t) ∧
    ∀ x, r.1 = some x → x.2 = px 0 va ∧ find child r.2.pte (key va) level t = some x.1

theorem Did.grown {N : Multiset Nat} (hg : Grown child 0 ptr s.pte s'.pte level t N)
    (hd : Did s s' (nodes child s.pte level t) (nodes child s'.pte level t)) : s'.free + N = s.free := by
  have h := hd.pages
  rw [hg.nodes, ← add_assoc, add_right_comm] at h
  exact add_right_cancel h

variable {c p g : Nat}

section

variable (hn : (s.free + nodes child s.pte (level + 1) t).Nodup)

include hn

theorem nodup_below (hc : child (s.pte t i) = some c) : (s.free + nodes child s.pte level c).Nodup := by
  rw [← below_some hc]
  exact Multiset.nodup_of_le (Multiset.add_le_add_left below_le_nodes) hn

theorem Walked.below {r : Option (Nat × Fin 512) × Ram} (hc : child (s.pte t (key va (level + 1))) = some c)
    (h : Walked va level c s r) : Walked va (level + 1) t s r := by
  obtain ⟨⟨new, hg⟩, hd, hfind⟩ := h
  have hnew : ∀ g ∈ new, g ∉ nodes child s.pte (level + 1) t := fun g hg' =>
    disjoint_left.mp (nodup_add.mp hn).2.2 (by
      rw [← hd.grown hg]
      exact mem_add.mpr (.inr hg'))
  have hg' := hg.lift (nodup_add.mp hn).2.1 hc hnew
  refine ⟨⟨new, hg'⟩, ?_, fun x hx => ?_⟩
  · rw [hg'.nodes, nodes_split t (key va (level + 1)), below_some hc]
    obtain ⟨R, hR⟩ : ∃ R, R = ∑ j ∈ Finset.univ.erase (key va (level + 1)), Radix.below child s.pte level t j := ⟨_, rfl⟩
    rw [← hR]
    have h := hd.frame ({t} + R)
    rw [hg.nodes] at h
    rw [show ({t} + (nodes child s.pte level c + R) + new : Multiset Nat) = nodes child s.pte level c + new + ({t} + R) by
      abel, show ({t} + (nodes child s.pte level c + R) : Multiset Nat) = nodes child s.pte level c + ({t} + R) by abel]
    exact h
  · obtain ⟨h₁, h₂⟩ := hfind x hx
    refine ⟨h₁, ?_⟩
    have ht : r.2.pte t = s.pte t := by
      refine hg.frame t ?_ fun ht => hnew t ht self_mem
      rw [← below_some hc]
      exact not_below (nodup_add.mp hn).2.1
    rw [find_some (by rw [ht, hc]), h₂]

/-- A new page-table page. -/
theorem attached {s₁ : Ram} (hi : child (s.pte t i) = none) (hlt : pg < 2 ^ 52) (hpg : pg ∈ s.free)
    (hmem : ∀ pg', pg' ≠ pg → s₁.mem pg' = s.mem pg') (hdid : Did s s₁ 0 {pg})
    (hs' : s' = (s₁.setPage pg (fill 0)).setPte t i (ptr pg)) :
    Grown child 0 ptr s.pte s'.pte (level + 1) t {pg} ∧
      Did s s' (nodes child s.pte (level + 1) t) (nodes child s'.pte (level + 1) t) := by
  obtain ⟨-, hn', hdisj⟩ := nodup_add.mp hn
  have hnotin := disjoint_left.mp hdisj hpg
  have htpg : t ≠ pg := fun h => hnotin (h ▸ self_mem)
  have hptr : ptr pg < 256 ^ 8 := by
    rw [ptr_eq]
    exact mkpte_lt hlt (by decide)
  have hpte : s'.pte = put (s₁.setPage pg (fill 0)).pte t i (ptr pg) := by rw [hs', pte_setPte hptr]
  have hold : ∀ g, g ≠ pg → (s₁.setPage pg (fill 0)).pte g = s.pte g := fun g hg => by
    rw [pte_setPage_ne hg]
    funext j
    rw [Ram.pte, Ram.pte, hmem g hg]
  have hg : Grown child 0 ptr s.pte s'.pte (level + 1) t {pg} := by
    refine Grown.attach hn' hi hnotin (child_ptr hlt) child_zero (fun g hg => ?_) fun j => ?_
    · rw [hpte, put, put, hold t htpg]
      by_cases hgt : g = t
      · rw [hgt, update_self, update_self]
      · rw [update_of_ne hgt, update_of_ne hgt, hold g hg]
    · rw [hpte, put_ne htpg.symm, pte_setPage_zero]
  refine ⟨hg, ?_⟩
  rw [hg.nodes, hs', add_comm (nodes child s.pte (level + 1) t)]
  have h := hdid.frame (nodes child s.pte (level + 1) t)
  rw [zero_add] at h
  exact (h.trans (.setPage (mem_add.mpr (.inl (mem_singleton_self pg))) _)).trans
    (.setPage (mem_add.mpr (.inr self_mem)) _)

end

/-- **With `alloc`, `walk` adds blank pages** from the free list. -/
theorem walkFrom_grow (hn : (s.free + nodes child s.pte level t).Nodup) (hlt : ∀ pg ∈ s.free, pg < 2 ^ 52) :
    Walked va level t s (walkFrom true va level s t) := by
  induction level generalizing s t with
  | zero =>
    refine ⟨⟨0, .refl ..⟩, .refl .., ?_⟩
    rintro x ⟨⟩
    exact ⟨rfl, rfl⟩
  | succ level ih =>
    rw [walkFrom]
    by_cases hv : has (s.pte t (px (level + 1) va)) PTE_V = true
    · rw [if_pos hv]
      obtain ⟨c, hcdef⟩ : ∃ c, c = pte2pa (s.pte t (px (level + 1) va)) := ⟨_, rfl⟩
      have hc : child (s.pte t (key va (level + 1))) = some c := by rw [child, key, if_pos hv, hcdef]
      rw [← hcdef]
      exact (ih (nodup_below hn hc) hlt).below hn hc
    · rw [if_neg hv, if_neg (by decide)]
      have hnone : child (s.pte t (px (level + 1) va)) = none := by rw [child, if_neg hv]
      rcases kalloc_spec s with ⟨s₁, hk, hmem, hdid⟩ | ⟨pg, s₁, hk, hpg, hmem, hdid⟩
      · have hpte : s₁.pte = s.pte := funext fun g => funext fun j => by rw [Ram.pte, Ram.pte, hmem]
        rw [hk]
        refine ⟨⟨0, ?_⟩, ?_, by rintro x ⟨⟩⟩
        · rw [hpte]
          exact .refl ..
        · rw [hpte]
          have h := hdid.frame (nodes child s.pte (level + 1) t)
          rwa [zero_add] at h
      · rw [hk]
        obtain ⟨s₂, hs₂⟩ : ∃ s₂, s₂ = (s₁.setPage pg (fill 0)).setPte t (px (level + 1) va) (ptr pg) := ⟨_, rfl⟩
        obtain ⟨hg, hd⟩ := attached hn hnone (hlt pg hpg) hpg hmem hdid hs₂
        have hc : child (s₂.pte t (key va (level + 1))) = some pg := by
          rw [hs₂, pte_setPte (by rw [ptr_eq]; exact mkpte_lt (hlt pg hpg) (by decide)), key, put_self,
            child_ptr (hlt pg hpg)]
        have hn₂ : (s₂.free + nodes child s₂.pte (level + 1) t).Nodup := by
          rw [hd.pages]
          exact hn
        have hlt₂ : ∀ pg ∈ s₂.free, pg < 2 ^ 52 := fun pg' hpg' => hlt pg' (by
          rw [← hd.grown hg]
          exact mem_add.mpr (.inl hpg'))
        obtain ⟨⟨new, hg'⟩, hd', hfind⟩ := (ih (nodup_below hn₂ hc) hlt₂).below hn₂ hc
        rw [hs₂] at hg' hd' hfind hg hd
        exact ⟨⟨_, hg.trans hg'⟩, hd.trans hd', hfind⟩

/-! ### The map -/

/-- The number of pages that a table can map. -/
def NPAGES : Nat := MAXVA / PGSIZE

/-- The entries, by page numbers. -/
def entries (s : Ram) (pagetable : Nat) : Nat → Nat := fun p => if p < NPAGES then lookup s pagetable (p * PGSIZE) else 0

/-- **A well-formed table** is a tree of different pages, and none of them is free.  The free pages are different, and they
are pages, so that their addresses are 64-bit words. -/
structure Table (s : Ram) (pagetable : Nat) : Prop where
  nodup : (s.free + pages s pagetable).Nodup
  lt : ∀ pg ∈ s.free, pg < 2 ^ 52

theorem lookup_entries {a : Nat} (ha : a < MAXVA) : lookup s pagetable a = entries s pagetable (a / PGSIZE) := by
  have hlt : a / PGSIZE < NPAGES := by
    unfold NPAGES MAXVA PGSIZE at *
    omega
  rw [entries, if_pos hlt]
  exact lookup_page s pagetable (pgrounddown_div a).symm

/-- Different pages have different indices. -/
theorem key_inj {q : Nat} (hp : p < NPAGES) (hq : q < NPAGES) :
    (∀ j, j ≤ 2 → key (q * PGSIZE) j = key (p * PGSIZE) j) ↔ q = p := by
  refine ⟨fun h => ?_, fun h _ _ => by rw [h]⟩
  have h₀ := Fin.val_eq_of_eq (h 0 (by omega))
  have h₁ := Fin.val_eq_of_eq (h 1 (by omega))
  have h₂ := Fin.val_eq_of_eq (h 2 (by omega))
  unfold NPAGES MAXVA PGSIZE at hp hq
  simp only [key, px, PGSIZE] at h₀ h₁ h₂
  omega

theorem entries_grown {new : Multiset Nat} (h : Grown child 0 ptr s.pte s'.pte 2 pagetable new) :
    entries s' pagetable = entries s pagetable := by
  funext p
  rw [entries, entries, lookup_get, lookup_get, h.get]

/-- One entry. -/
theorem entries_setPte (hn : (pages s pagetable).Nodup) (hp : p < NPAGES)
    (hg : find child s.pte (key (p * PGSIZE)) 2 pagetable = some g) (hv : v < 256 ^ 8) :
    entries (s.setPte g (px 0 (p * PGSIZE)) v) pagetable = update (entries s pagetable) p v := by
  funext q
  by_cases hq : q < NPAGES
  · rw [entries, if_pos hq, lookup_get, pte_setPte hv]
    show Radix.get child 0 (put s.pte g (key (p * PGSIZE) 0) v) (key (q * PGSIZE)) 2 pagetable = _
    rw [get_put hn hg]
    by_cases hqp : q = p
    · rw [if_pos ((key_inj hp hq).mpr hqp), hqp, update_self]
    · rw [if_neg (mt (key_inj hp hq).mp hqp), update_of_ne hqp, entries, if_pos hq, lookup_get]
  · have hqp : q ≠ p := by omega
    rw [update_of_ne hqp, entries, entries, if_neg hq, if_neg hq]

theorem pte_found (hp : p < NPAGES) (hg : find child s.pte (key (p * PGSIZE)) 2 pagetable = some g) :
    s.pte g (px 0 (p * PGSIZE)) = entries s pagetable p := by
  rw [entries, if_pos hp, lookup_get, Radix.get, hg]
  rfl

/-! ### Changes of the map -/

/-- **The table has changed on `n` pages from `p` on**, to the entries `f`.  The pages `U` were owned next to those of the
table before, and `U'` after. -/
structure Remap (s s' : Ram) (pagetable : Nat) (U U' : Multiset Nat) (p n : Nat) (f : Nat → Nat) : Prop where
  table : Table s' pagetable
  did : Did s s' (pages s pagetable + U) (pages s' pagetable + U')
  map : Pasted (entries s' pagetable) (entries s pagetable) p n f
  all : ∀ P : Nat → Nat → Prop, (∀ l, P l 0) → (∀ l c, P (l + 1) (ptr c)) → (∀ k, k < n → P 0 (f k)) →
    All child P s.pte 2 pagetable → All child P s'.pte 2 pagetable

section Remap

variable {U U' U'' : Multiset Nat} {p n m : Nat} {f : Nat → Nat} {perm : Nat}

theorem Remap.refl (ht : Table s pagetable) (U : Multiset Nat) (p : Nat) (f : Nat → Nat) :
    Remap s s pagetable U U p 0 f :=
  ⟨ht, .refl .., Pasted.zero _ _ _, fun _ _ _ _ h => h⟩

theorem Remap.trans (h : Remap s s' pagetable U U' p n f)
    (h' : Remap s' s'' pagetable U' U'' (p + n) m fun k => f (n + k)) : Remap s s'' pagetable U U'' p (n + m) f where
  table := h'.table
  did := h.did.trans h'.did
  map := h.map.append h'.map
  all P hz hptr hf hs := h'.all P hz hptr (fun k hk => hf (n + k) (by omega))
    (h.all P hz hptr (fun k hk => hf k (by omega)) hs)

/-- What leaves the map as it is may come first. -/
theorem Remap.after (h : Remap s s' pagetable U U' p 0 f) (h' : Remap s' s'' pagetable U' U'' p n f) :
    Remap s s'' pagetable U U'' p n f := by
  have hf : (fun k => f (0 + k)) = f := funext fun k => by rw [zero_add]
  rw [← zero_add n]
  exact h.trans (by rwa [hf])

/-- **`walk` leaves the map as it is.** -/
theorem walk_spec (ht : Table s pagetable) (hva : va < MAXVA) (p : Nat) (f : Nat → Nat) :
    ∃ o s', walk s pagetable va true = .ok (o, s') ∧ Remap s s' pagetable 0 0 p 0 f ∧
      ∀ x, o = some x → x.2 = px 0 va ∧ find child s'.pte (key va) 2 pagetable = some x.1 := by
  have hwalked : Walked va 2 pagetable s _ := walkFrom_grow ht.nodup ht.lt
  rw [walk, if_neg (by omega)]
  obtain ⟨⟨o, s'⟩, hr⟩ : ∃ r, r = walkFrom true va 2 s pagetable := ⟨_, rfl⟩
  rw [← hr] at hwalked ⊢
  obtain ⟨⟨new, hg⟩, hd, hfind⟩ := hwalked
  refine ⟨o, s', rfl, ⟨⟨?_, fun pg hpg => ht.lt pg ?_⟩, ?_, ?_, fun P hz hptr _ hs => ?_⟩, hfind⟩
  · rw [pages, hd.pages]
    exact ht.nodup
  · rw [← hd.grown hg]
    exact mem_add.mpr (.inl hpg)
  · rw [add_zero, add_zero]
    exact hd
  · rw [entries_grown hg]
    exact Pasted.zero _ _ _
  · exact hg.all P hz (fun l c _ => hptr l c) hs

/-- One entry is stored. -/
theorem setPte_spec (ht : Table s pagetable) (hp : p < NPAGES)
    (hg : find child s.pte (key (p * PGSIZE)) 2 pagetable = some g) (hv : f 0 < 256 ^ 8) (U : Multiset Nat) :
    Remap s (s.setPte g (px 0 (p * PGSIZE)) (f 0)) pagetable U U p 1 f := by
  have hn := (nodup_add.mp ht.nodup).2.1
  have hpages : pages (s.setPte g (px 0 (p * PGSIZE)) (f 0)) pagetable = pages s pagetable := by
    rw [pages, pte_setPte hv]
    exact (put_tree hn hg).1
  refine ⟨⟨?_, ht.lt⟩, ?_, ?_, fun P hz hptr hf hs => ?_⟩
  · rw [hpages]
    exact ht.nodup
  · rw [hpages]
    exact .setPage (mem_add.mpr (.inl (find_mem hg))) _
  · rw [entries_setPte hn hp hg hv]
    exact Pasted.one _ _ _
  · rw [pte_setPte hv]
    exact hs.put hn hg (hf 0 Nat.zero_lt_one)

/-- **`mappages`** maps the pages of its range, or the first of them. -/
theorem mapLoop_spec (n : Nat) (ht : Table s pagetable) (hp : p + n ≤ NPAGES) (hpg : pg < 2 ^ 52)
    (hperm : perm < 1024) (hfree : ∀ k, k < n → has (entries s pagetable (p + k)) PTE_V = false) :
    ∃ ok s' m, mapLoop pagetable perm n s (p * PGSIZE) pg = .ok (ok, s') ∧ m ≤ n ∧ (ok = true → m = n) ∧
      (ok = false → m < n) ∧ Remap s s' pagetable 0 0 p m fun k => mkpte ((pg + k) % 2 ^ 52) perm := by
  induction n generalizing s p pg with
  | zero => exact ⟨true, s, 0, rfl, le_rfl, fun _ => rfl, by rintro ⟨⟩, .refl ht ..⟩
  | succ n ih =>
    have hp' : p < NPAGES := by omega
    have hva : p * PGSIZE < MAXVA := by
      unfold NPAGES MAXVA PGSIZE at *
      omega
    obtain ⟨o, s₁, hwalk, hs₁, hfind⟩ := walk_spec ht hva p fun k => mkpte ((pg + k) % 2 ^ 52) perm
    rw [mapLoop, hwalk]
    rcases o with - | ⟨g, i⟩
    · exact ⟨false, s₁, 0, rfl, Nat.zero_le _, by rintro ⟨⟩, fun _ => Nat.succ_pos n, hs₁⟩
    obtain ⟨rfl, hg⟩ := hfind _ rfl
    have hinv : has (s₁.pte g (px 0 (p * PGSIZE))) PTE_V = false := by
      rw [pte_found hp' hg, hs₁.map p, if_neg (by omega)]
      exact hfree 0 (Nat.succ_pos n)
    have hfirst : mkpte ((pg + 0) % 2 ^ 52) perm = pa2pte pg ||| perm ||| PTE_V := by
      rw [add_zero, Nat.mod_eq_of_lt hpg, mkpte]
    have hv : mkpte ((pg + 0) % 2 ^ 52) perm < 256 ^ 8 := mkpte_lt (Nat.mod_lt _ (by norm_num)) hperm
    have hs₂ := setPte_spec (f := fun k => mkpte ((pg + k) % 2 ^ 52) perm) hs₁.table hp' hg hv 0
    rw [hfirst] at hs₂
    have hs := hs₁.after hs₂
    show ∃ ok s' m, (if has (s₁.pte g (px 0 (p * PGSIZE))) PTE_V = true then _ else _) = _ ∧ _
    rw [if_neg (by rw [hinv]; exact Bool.false_ne_true)]
    have hnext : u64 (p * PGSIZE + PGSIZE) = (p + 1) * PGSIZE := by
      unfold u64 NPAGES MAXVA PGSIZE at *
      omega
    rw [hnext]
    have hmod : (pg + 1) % 2 ^ 52 < 2 ^ 52 := Nat.mod_lt _ (by norm_num)
    have hp₁ : p + 1 + n ≤ NPAGES := by omega
    obtain ⟨ok, s', m, hloop, hm, hall, hshort, hrest⟩ := ih hs₂.table hp₁ hmod fun k hk => by
        rw [hs.map, if_neg (by omega), add_assoc, add_comm 1 k]
        exact hfree (k + 1) (by omega)
    refine ⟨ok, s', m + 1, hloop, by omega, fun hok => by rw [hall hok], fun hok => by have := hshort hok; omega, ?_⟩
    have hf : (fun k => mkpte (((pg + 1) % 2 ^ 52 + k) % 2 ^ 52) perm) = fun k => mkpte ((pg + (1 + k)) % 2 ^ 52) perm :=
      funext fun k => by rw [Nat.mod_add_mod, add_assoc]
    rw [hf] at hrest
    rw [add_comm m]
    exact hs.trans hrest

theorem mappages_spec {size : Nat} (ht : Table s pagetable) (hsize : 0 < size) (hva : va + size ≤ MAXVA)
    (hpg : pg < 2 ^ 52) (hperm : perm < 1024)
    (hfree : ∀ k, k < (va + size - 1) / PGSIZE + 1 - va / PGSIZE →
      has (entries s pagetable (va / PGSIZE + k)) PTE_V = false) :
    ∃ ok s' m, mappages s pagetable va size pg perm = .ok (ok, s') ∧ m ≤ (va + size - 1) / PGSIZE + 1 - va / PGSIZE ∧
      (ok = true → m = (va + size - 1) / PGSIZE + 1 - va / PGSIZE) ∧
      (ok = false → m < (va + size - 1) / PGSIZE + 1 - va / PGSIZE) ∧
      Remap s s' pagetable 0 0 (va / PGSIZE) m fun k => mkpte ((pg + k) % 2 ^ 52) perm := by
  have hrounds : u64 (pgrounddown (u64 (va + size - 1)) + 2 ^ 64 - pgrounddown va) / PGSIZE + 1
      = (va + size - 1) / PGSIZE + 1 - va / PGSIZE := by
    unfold u64 pgrounddown MAXVA PGSIZE at *
    omega
  rw [mappages, if_neg (by omega)]
  dsimp only
  rw [hrounds]
  refine mapLoop_spec _ ht ?_ hpg hperm hfree
  unfold NPAGES MAXVA PGSIZE at *
  omega

/-- The user pages that are mapped on an interval. -/
def mapped (s : Ram) (pagetable p n : Nat) : Multiset Nat :=
  (range n).map fun k => pte2pa (entries s pagetable (p + k))

/-- The pages that `uvmunmap` frees. -/
def freed (s : Ram) (pagetable : Nat) (do_free : Bool) (p n : Nat) : Multiset Nat :=
  if do_free then mapped s pagetable p n else 0

/-- A page is mapped, and can be freed. -/
def Removable (s : Ram) (pagetable : Nat) (do_free : Bool) (p : Nat) : Prop :=
  p < NPAGES ∧ has (entries s pagetable p) PTE_V = true ∧ pteFlags (entries s pagetable p) ≠ PTE_V ∧
    (do_free = true → s.first ≤ pte2pa (entries s pagetable p) ∧ pte2pa (entries s pagetable p) < LASTPAGE)

theorem mapped_succ (s : Ram) (pagetable p n : Nat) : mapped s pagetable p (n + 1) =
    {pte2pa (entries s pagetable p)} + mapped s pagetable (p + 1) n := by
  rw [mapped, ← coe_range, map_coe, List.range_succ_eq_map,
    List.map_cons, List.map_map]
  refine congrArg _ (congrArg _ (List.map_congr_left fun k _ => ?_))
  show pte2pa (entries s pagetable (p + (k + 1))) = pte2pa (entries s pagetable (p + 1 + k))
  rw [add_assoc, add_comm 1 k]

theorem mapped_congr (h : ∀ k, k < n → entries s' pagetable (p + k) = entries s pagetable (p + k)) :
    mapped s' pagetable p n = mapped s pagetable p n :=
  map_congr rfl fun k hk => by rw [h k (mem_range.mp hk)]

theorem freed_succ (s : Ram) (pagetable : Nat) (do_free : Bool) (p n : Nat) : freed s pagetable do_free p (n + 1) =
    freed s pagetable do_free p 1 + freed s pagetable do_free (p + 1) n := by
  cases do_free with
  | false => exact (add_zero 0).symm
  | true =>
    show mapped s pagetable p (n + 1) = mapped s pagetable p 1 + mapped s pagetable (p + 1) n
    have hzero : mapped s pagetable (p + 1) 0 = 0 := rfl
    rw [mapped_succ, mapped_succ s pagetable p 0, hzero, add_zero]

variable {do_free : Bool}

theorem freed_congr (h : ∀ k, k < n → entries s' pagetable (p + k) = entries s pagetable (p + k)) :
    freed s' pagetable do_free p n = freed s pagetable do_free p n := by
  rw [freed, freed, mapped_congr h]

/-- A page that is not in the table is freed. -/
theorem kfree_remap (ht : Table s pagetable) (hlt : pg < 2 ^ 52) (hn : (s.free + (pages s pagetable + ({pg} + U))).Nodup)
    (h₁ : s.first ≤ pg) (h₂ : pg < LASTPAGE) (p : Nat) (f : Nat → Nat) :
    ∃ s', kfree s pg = .ok s' ∧ (∀ g ∈ pages s pagetable, s'.pte g = s.pte g) ∧
      Remap s s' pagetable ({pg} + U) U p 0 f := by
  obtain ⟨s', hok, hmem, hdid⟩ := kfree_ok h₁ h₂
  have hnotin : pg ∉ pages s pagetable := fun hpg =>
    disjoint_left.mp (nodup_add.mp (nodup_add.mp hn).2.1).2.2 hpg
      (mem_add.mpr (.inl (mem_singleton_self pg)))
  have hpte : ∀ g ∈ pages s pagetable, s'.pte g = s.pte g := fun g hg => by
    funext j
    rw [Ram.pte, Ram.pte, hmem g (fun h => hnotin (h ▸ hg))]
  have hpages : pages s' pagetable = pages s pagetable := nodes_congr hpte
  have hfree : s'.free = s.free + {pg} := by
    rw [← hdid.pages, add_zero]
  refine ⟨s', hok, hpte, ⟨?_, fun pg' hpg' => ?_⟩, ?_, ?_, fun P _ _ _ hs => hs.congr hpte⟩
  · rw [hpages, hfree, add_assoc]
    refine nodup_of_le ?_ hn
    rw [← add_assoc (pages s pagetable), add_comm (pages s pagetable)]
    exact Multiset.add_le_add_left (Multiset.le_add_right _ _)
  · rw [hfree, mem_add, mem_singleton] at hpg'
    rcases hpg' with hpg' | rfl
    · exact ht.lt pg' hpg'
    · exact hlt
  · have h := hdid.frame (pages s pagetable + U)
    rw [zero_add, add_left_comm] at h
    rw [hpages]
    exact h
  · have hentries : entries s' pagetable = entries s pagetable := funext fun q => by
      rw [entries, entries, lookup_get, lookup_get, get_congr hpte]
    rw [hentries]
    exact Pasted.zero _ _ _

/-- A round of `uvmunmap` where a page cannot be removed. -/
theorem unmapLoop_error (n : Nat) (h : ¬ Removable s pagetable do_free p) :
    ∃ e, unmapLoop pagetable do_free (n + 1) s (p * PGSIZE) = .error e := by
  rw [unmapLoop, walk]
  by_cases hp : p < NPAGES
  swap
  · have hva : MAXVA ≤ p * PGSIZE := by
      unfold NPAGES MAXVA PGSIZE at *
      omega
    rw [if_pos hva]
    exact ⟨_, rfl⟩
  have hva : ¬ MAXVA ≤ p * PGSIZE := by
    unfold NPAGES MAXVA PGSIZE at *
    omega
  rw [if_neg hva, walkFrom_find]
  rcases hg : find child s.pte (key (p * PGSIZE)) 2 pagetable with - | g
  · exact ⟨_, rfl⟩
  show ∃ e, (if has (s.pte g (px 0 (p * PGSIZE))) PTE_V = false then _
    else if pteFlags (s.pte g (px 0 (p * PGSIZE))) = PTE_V then _ else _) = _
  rw [pte_found hp hg]
  by_cases hv : has (entries s pagetable p) PTE_V = false
  · rw [if_pos hv]
    exact ⟨_, rfl⟩
  by_cases hfl : pteFlags (entries s pagetable p) = PTE_V
  · rw [if_neg hv, if_pos hfl]
    exact ⟨_, rfl⟩
  rw [if_neg hv, if_neg hfl]
  -- then it is `kfree` that fails
  have hfail : do_free = true ∧ (pte2pa (entries s pagetable p) < s.first ∨ LASTPAGE ≤ pte2pa (entries s pagetable p)) := by
    by_contra hcon
    refine h ⟨hp, Bool.eq_true_of_not_eq_false hv, hfl, fun hfree => ?_⟩
    by_contra hcon'
    exact hcon ⟨hfree, by omega⟩
  rw [hfail.1, kfree, if_pos hfail.2]
  exact ⟨_, rfl⟩

/-- A round of `uvmunmap` where a page is removed. -/
theorem unmapLoop_succ (n : Nat) (ht : Table s pagetable)
    (hn : (s.free + (pages s pagetable + (freed s pagetable do_free p 1 + U))).Nodup)
    (h : Removable s pagetable do_free p) :
    ∃ s', unmapLoop pagetable do_free (n + 1) s (p * PGSIZE) = unmapLoop pagetable do_free n s' ((p + 1) * PGSIZE) ∧
      Remap s s' pagetable (freed s pagetable do_free p 1 + U) U p 1 fun _ => 0 := by
  obtain ⟨hp, hv, hfl, hrange⟩ := h
  have hva : ¬ MAXVA ≤ p * PGSIZE := by
    unfold NPAGES MAXVA PGSIZE at *
    omega
  obtain ⟨g, hg⟩ : ∃ g, find child s.pte (key (p * PGSIZE)) 2 pagetable = some g := by
    rcases hg : find child s.pte (key (p * PGSIZE)) 2 pagetable with - | g
    · rw [entries, if_pos hp, lookup_get, Radix.get, hg] at hv
      have hzero : has 0 PTE_V = false := rfl
      exact Bool.noConfusion (hzero.symm.trans hv)
    · exact ⟨g, rfl⟩
  rw [unmapLoop, walk, if_neg hva, walkFrom_find, hg]
  show ∃ s', (if has (s.pte g (px 0 (p * PGSIZE))) PTE_V = false then _
    else if pteFlags (s.pte g (px 0 (p * PGSIZE))) = PTE_V then _ else _) = _ ∧ _
  rw [pte_found hp hg, if_neg (by rw [hv]; simp), if_neg hfl, Nat.succ_mul]
  cases do_free with
  | false =>
    have hzero : freed s pagetable false p 1 + U = U := zero_add U
    rw [hzero]
    exact ⟨_, rfl, setPte_spec (f := fun _ => 0) ht hp hg (by norm_num) U⟩
  | true =>
    have hone : freed s pagetable true p 1 = {pte2pa (entries s pagetable p)} := rfl
    obtain ⟨h₁, h₂⟩ := hrange rfl
    have hlt : pte2pa (entries s pagetable p) < 2 ^ 52 := Nat.mod_lt _ (by norm_num)
    obtain ⟨s₁, hok, hpte, hs₁⟩ := kfree_remap ht hlt hn h₁ h₂ p fun _ => 0
    have hg₁ : find child s₁.pte (key (p * PGSIZE)) 2 pagetable = some g := by rw [find_congr hpte, hg]
    rw [hok]
    exact ⟨_, rfl, hs₁.after (setPte_spec (f := fun _ => 0) hs₁.table hp hg₁ (by norm_num) U)⟩

/-- **`uvmunmap`** clears the entries of its range, if they are all there. -/
theorem unmapLoop_spec (n : Nat) (ht : Table s pagetable)
    (hn : (s.free + (pages s pagetable + freed s pagetable do_free p n)).Nodup) :
    (∃ s', unmapLoop pagetable do_free n s (p * PGSIZE) = .ok s' ∧ (∀ k, k < n → Removable s pagetable do_free (p + k)) ∧
      Remap s s' pagetable (freed s pagetable do_free p n) 0 p n fun _ => 0) ∨
    (∃ e, unmapLoop pagetable do_free n s (p * PGSIZE) = .error e) ∧
      ¬ ∀ k, k < n → Removable s pagetable do_free (p + k) := by
  induction n generalizing s p with
  | zero =>
    refine .inl ⟨s, rfl, by omega, ?_⟩
    have hzero : freed s pagetable do_free p 0 = 0 := by
      cases do_free <;> rfl
    rw [hzero]
    exact .refl ht ..
  | succ n ih =>
    by_cases hfirst : Removable s pagetable do_free p
    swap
    · exact .inr ⟨unmapLoop_error n hfirst, fun h => hfirst (h 0 (Nat.succ_pos n))⟩
    rw [freed_succ] at hn ⊢
    obtain ⟨s₁, hstep, hs₁⟩ := unmapLoop_succ n ht hn hfirst
    -- the other entries are as before
    have hsame : ∀ k, k < n → entries s₁ pagetable (p + 1 + k) = entries s pagetable (p + 1 + k) := fun k _ => by
      rw [hs₁.map, if_neg (by omega)]
    have hready : ∀ k, k < n → (Removable s₁ pagetable do_free (p + 1 + k) ↔ Removable s pagetable do_free (p + (k + 1))) :=
      fun k hk => by rw [Removable, Removable, hsame k hk, hs₁.did.first, add_assoc, add_comm 1 k]
    have hfreed : freed s₁ pagetable do_free (p + 1) n = freed s pagetable do_free (p + 1) n := freed_congr hsame
    have hn₁ : (s₁.free + (pages s₁ pagetable + freed s₁ pagetable do_free (p + 1) n)).Nodup := by
      rw [hfreed, hs₁.did.pages]
      exact hn
    rw [hstep]
    rcases ih hs₁.table hn₁ with ⟨s', hok, hall, hs'⟩ | ⟨herr, hnot⟩
    · rw [hfreed] at hs'
      refine .inl ⟨s', hok, fun k hk => ?_, ?_⟩
      · cases k with
        | zero => exact hfirst
        | succ k => exact (hready k (by omega)).mp (hall k (by omega))
      · rw [add_comm n]
        exact hs₁.trans hs'
    · exact .inr ⟨herr, fun h => hnot fun k hk => (hready k hk).mpr (h (k + 1) (by omega))⟩

end Remap

/-! ### The results -/

/-- **The page table is a map.**  For a well-formed table, `walk` changes no entry; `mappages` maps the pages of its range,
or a first part of them when it fails; `uvmunmap` clears the entries of its range; and the table stays well formed.  When
`uvmunmap` frees the pages, they must be different pages that are neither free nor part of the table. -/
theorem page_table_map (ht : Table s pagetable) :
    (∀ va, va < MAXVA → ∃ o s', walk s pagetable va true = .ok (o, s') ∧ Table s' pagetable ∧
      ∀ a, a < MAXVA → lookup s' pagetable a = lookup s pagetable a) ∧
    (∀ va size pg perm, 0 < size → va + size ≤ MAXVA → pg < 2 ^ 52 → perm < 1024 →
      (∀ a, va / PGSIZE ≤ a / PGSIZE → a / PGSIZE ≤ (va + size - 1) / PGSIZE → has (lookup s pagetable a) PTE_V = false) →
      ∃ ok s' m, mappages s pagetable va size pg perm = .ok (ok, s') ∧ Table s' pagetable ∧
        (ok = true → va / PGSIZE + m = (va + size - 1) / PGSIZE + 1) ∧
        (ok = false → va / PGSIZE + m < (va + size - 1) / PGSIZE + 1) ∧
        ∀ a, a < MAXVA →
          (va / PGSIZE ≤ a / PGSIZE → a / PGSIZE < va / PGSIZE + m →
            lookup s' pagetable a = mkpte ((pg + (a / PGSIZE - va / PGSIZE)) % 2 ^ 52) perm ∧
            pte2pa (lookup s' pagetable a) = (pg + (a / PGSIZE - va / PGSIZE)) % 2 ^ 52 ∧
            pteFlags (lookup s' pagetable a) = perm ||| PTE_V) ∧
          (¬ (va / PGSIZE ≤ a / PGSIZE ∧ a / PGSIZE < va / PGSIZE + m) →
            lookup s' pagetable a = lookup s pagetable a)) ∧
    ∀ va npages do_free, va + npages * PGSIZE < 2 ^ 64 →
      (s.free + (pages s pagetable + freed s pagetable do_free (va / PGSIZE) npages)).Nodup →
      (∀ s', uvmunmap s pagetable va npages do_free = .ok s' → Table s' pagetable ∧
        ∀ a, a < MAXVA → lookup s' pagetable a =
          if va / PGSIZE ≤ a / PGSIZE ∧ a / PGSIZE < va / PGSIZE + npages then 0 else lookup s pagetable a) ∧
      (va % PGSIZE = 0 → (∀ k, k < npages → Removable s pagetable do_free (va / PGSIZE + k)) →
        ∃ s', uvmunmap s pagetable va npages do_free = .ok s') := by
  refine ⟨fun va hva => ?_, fun va size pg perm hsize hva hpg hperm hfree => ?_, fun va npages do_free hnp hn => ?_⟩
  · obtain ⟨o, s', hwalk, hs', -⟩ := walk_spec ht hva 0 fun _ => 0
    refine ⟨o, s', hwalk, hs'.table, fun a ha => ?_⟩
    rw [lookup_entries ha, lookup_entries ha, hs'.map, if_neg (by omega)]
  · have hpages : va / PGSIZE ≤ (va + size - 1) / PGSIZE := Nat.div_le_div_right (by omega)
    have hlast : ∀ k, k < (va + size - 1) / PGSIZE + 1 - va / PGSIZE → va / PGSIZE + k < NPAGES := fun k hk => by
      unfold NPAGES MAXVA PGSIZE at *
      omega
    obtain ⟨ok, s', m, hmap, hm, hall, hshort, hs'⟩ := mappages_spec ht hsize hva hpg hperm fun k hk => by
      have hdiv : (va / PGSIZE + k) * PGSIZE / PGSIZE = va / PGSIZE + k := Nat.mul_div_cancel _ (by decide)
      rw [entries, if_pos (hlast k hk)]
      exact hfree _ (by omega) (by omega)
    refine ⟨ok, s', m, hmap, hs'.table, fun hok => by have := hall hok; omega, fun hok => by have := hshort hok; omega,
      fun a ha => ⟨fun h₁ h₂ => ?_, fun h => ?_⟩⟩
    · have hlook : lookup s' pagetable a = mkpte ((pg + (a / PGSIZE - va / PGSIZE)) % 2 ^ 52) perm := by
        rw [lookup_entries ha, hs'.map, if_pos ⟨h₁, h₂⟩]
      refine ⟨hlook, ?_, ?_⟩
      · rw [hlook, pte2pa_mkpte (Nat.mod_lt _ (by norm_num)) hperm]
      · rw [hlook, mkpte_flags]
        exact Nat.mod_eq_of_lt (Nat.or_lt_two_pow (n := 10) hperm (by decide))
    · rw [lookup_entries ha, lookup_entries ha, hs'.map, if_neg h]
  · have hrounds : va % PGSIZE = 0 → uvmunmap s pagetable va npages do_free =
        unmapLoop pagetable do_free npages s (va / PGSIZE * PGSIZE) := by
      intro hal
      have hn : (u64 (va + npages * PGSIZE) - va + PGSIZE - 1) / PGSIZE = npages := by
        unfold u64 PGSIZE at *
        omega
      have hva : va / PGSIZE * PGSIZE = va := Nat.div_mul_cancel (Nat.dvd_of_mod_eq_zero hal)
      rw [uvmunmap, if_neg (by omega), hn, hva]
    have hspec := unmapLoop_spec npages ht hn
    refine ⟨fun s' hok => ?_, fun hal hready => ?_⟩
    · by_cases hal : va % PGSIZE = 0
      · rw [hrounds hal] at hok
        rcases hspec with ⟨s₁, hok₁, -, hs₁⟩ | ⟨⟨e, herr⟩, -⟩
        · obtain rfl : s₁ = s' := Except.ok.inj (hok₁.symm.trans hok)
          refine ⟨hs₁.table, fun a ha => ?_⟩
          rw [lookup_entries ha, lookup_entries ha, hs₁.map]
        · rw [herr] at hok
          cases hok
      · rw [uvmunmap, if_pos hal] at hok
        cases hok
    · rw [hrounds hal]
      rcases hspec with ⟨s', hok, -⟩ | ⟨-, hnot⟩
      · exact ⟨s', hok⟩
      · exact absurd hready hnot

theorem pages_selfMapped : pages selfMapped 10 = {10} + ({11} + {12}) := by
  have hroot : ∀ j : Fin 512, j ≠ 0 → child (selfMapped.pte 10 j) = none := by decide +kernel
  have hmid : ∀ j : Fin 512, j ≠ 0 → child (selfMapped.pte 11 j) = none := by decide +kernel
  have hroot₀ : child (selfMapped.pte 10 0) = some 11 := by decide
  have hmid₀ : child (selfMapped.pte 11 0) = some 12 := by decide
  rw [pages, nodes_single hroot₀ hroot, nodes_single hmid₀ hmid, nodes_zero]

theorem selfMapped_table : Table selfMapped 10 := by
  refine ⟨?_, fun pg hpg => absurd hpg (notMem_zero pg)⟩
  rw [pages_selfMapped]
  decide

/-- A page of the table can be freed when it is mapped: then the entries that it holds are lost. -/
theorem uvmunmap_self_mapped : Table selfMapped 10 ∧
    (uvmunmap selfMapped 10 (510 * PGSIZE) 1 true).toOption.map (lookup · 10 (511 * PGSIZE)) = some 0x0101010101010101 ∧
    lookup selfMapped 10 (511 * PGSIZE) = mkpte 13 (PTE_R ||| PTE_W ||| PTE_U) := by
  refine ⟨selfMapped_table, ?_⟩
  decide +kernel

theorem page_table_map_selfMapped : Table selfMapped 10 ∧ ∃ o s', walk selfMapped 10 0 true = .ok (o, s') ∧
    Table s' 10 ∧ ∀ a, a < MAXVA → lookup s' 10 a = lookup selfMapped 10 a :=
  ⟨selfMapped_table, (page_table_map selfMapped_table).1 0 (by decide)⟩

end Xv6.Vm
