/-
Xv6/VmCopy.lean

`copyin`, `copyinstr` and `copyout`: what they copy, and that they touch nothing else.

`translate` is the physical byte that a user address stands for.  The loops go from page to
page, so each of them is a statement about one page and the rest.  `copyout` writes to memory
that `walkaddr` reads later on: it needs to know that the pages it writes to are not pages of
the table.
-/
import Xv6.VmTable

namespace Xv6.Vm

open Function List

variable {s s' : Ram} {pagetable : Nat}

/-! ### Translation -/

/-- The physical byte that the user address `a` stands for: its page and the offset there. -/
def translate (s : Ram) (pagetable a : Nat) : Option (Nat × Nat) :=
  let pte := lookup s pagetable a
  if a < MAXVA ∧ has pte PTE_V = true ∧ has pte PTE_U = true ∧ pte2pa pte ≠ 0 then some (pte2pa pte, a % PGSIZE)
  else none

/-- The byte at a user address, where there is one. -/
def userByte (s : Ram) (pagetable a : Nat) : Option UInt8 :=
  (translate s pagetable a).map fun x => (s.mem x.1).get x.2

theorem walkaddr_lookup (s : Ram) (pagetable va : Nat) : walkaddr s pagetable va =
    if MAXVA ≤ va then 0
    else if has (lookup s pagetable va) PTE_V = false then 0
    else if has (lookup s pagetable va) PTE_U = false then 0
    else pte2pa (lookup s pagetable va) := by
  unfold walkaddr lookup
  split
  · rfl
  rcases (walkFrom false va 2 s pagetable).1 with - | ⟨t, i⟩
  · have hzero : has 0 PTE_V = false := rfl
    exact (if_pos hzero).symm
  · rfl

/-- Addresses are below `MAXVA` when their page is. -/
theorem maxva_le_pgrounddown {a : Nat} : MAXVA ≤ pgrounddown a ↔ MAXVA ≤ a := by
  unfold MAXVA pgrounddown PGSIZE
  omega

/-- **`walkaddr` translates** the page of an address. -/
theorem translate_eq (s : Ram) (pagetable a : Nat) : translate s pagetable a =
    if walkaddr s pagetable (pgrounddown a) = 0 then none
    else some (walkaddr s pagetable (pgrounddown a), a % PGSIZE) := by
  have hlook : lookup s pagetable (pgrounddown a) = lookup s pagetable a := lookup_page s pagetable (pgrounddown_div a)
  rw [walkaddr_lookup, hlook]
  unfold translate
  dsimp only
  by_cases hmax : MAXVA ≤ a
  · rw [if_neg (by omega), if_pos (maxva_le_pgrounddown.mpr hmax), if_pos rfl]
  rw [if_neg (mt maxva_le_pgrounddown.mp hmax)]
  have hlt : a < MAXVA := by omega
  rcases has (lookup s pagetable a) PTE_V
  · simp
  rcases has (lookup s pagetable a) PTE_U
  · simp
  · by_cases h0 : pte2pa (lookup s pagetable a) = 0
    · simp [h0]
    · simp [h0, hlt]

/-! ### One page -/

section Page

variable {va k n len : Nat}

/-- The part of a transfer that is in the first page. -/
theorem page_add (hk : k < PGSIZE - (va - pgrounddown va)) :
    pgrounddown (va + k) = pgrounddown va ∧ (va + k) % PGSIZE = va - pgrounddown va + k := by
  unfold pgrounddown PGSIZE at *
  omega

section

variable (h : walkaddr s pagetable (pgrounddown va) ≠ 0)

include h

/-- After the first page comes the next one. -/
theorem next_page : u64 (pgrounddown va + PGSIZE) = va + (PGSIZE - (va - pgrounddown va)) ∧ va < MAXVA := by
  have hlt : va < MAXVA := by
    by_contra hge
    rw [walkaddr_lookup, if_pos (maxva_le_pgrounddown.mpr (by omega))] at h
    exact h rfl
  refine ⟨?_, hlt⟩
  unfold MAXVA at hlt
  unfold u64 pgrounddown PGSIZE
  omega

theorem translate_first (hk : k < PGSIZE - (va - pgrounddown va)) :
    translate s pagetable (va + k) = some (walkaddr s pagetable (pgrounddown va), va - pgrounddown va + k) := by
  obtain ⟨hpage, hoff⟩ := page_add hk
  rw [translate_eq, hpage, if_neg h, hoff]

theorem userByte_first (hk : k < PGSIZE - (va - pgrounddown va)) :
    userByte s pagetable (va + k)
      = some ((s.mem (walkaddr s pagetable (pgrounddown va))).get (va - pgrounddown va + k)) := by
  unfold userByte
  rw [translate_first h hk]
  rfl

end

theorem isSome_userByte (s : Ram) (pagetable a : Nat) :
    (userByte s pagetable a).isSome = (translate s pagetable a).isSome := Option.isSome_map


theorem userByte_none (h : walkaddr s pagetable (pgrounddown va) = 0) : userByte s pagetable va = none := by
  rw [userByte, translate_eq, if_pos h]
  rfl

/-- What is left of a transfer after its first page starts at the next one. -/
theorem rest_page (h : walkaddr s pagetable (pgrounddown va) ≠ 0) (hn : n = min (PGSIZE - (va - pgrounddown va)) len)
    (hlt : n < len) : u64 (pgrounddown va + PGSIZE) = va + n := by
  rw [(next_page h).1, hn, min_eq_left (by omega)]

/-- Where the part in the first page ends. -/
structure First (va len n : Nat) : Prop where
  pos : 0 < n
  le : n ≤ len
  page : n ≤ PGSIZE - (va - pgrounddown va)
  off : va - pgrounddown va + n ≤ PGSIZE
  next : n < len → (va + n) % PGSIZE = 0

theorem First.of_min (va : Nat) (hlen : len ≠ 0) : First va len (min (PGSIZE - (va - pgrounddown va)) len) := by
  constructor <;> unfold pgrounddown PGSIZE <;> omega

end Page

/-! ### How far a transfer gets -/

/-- **A transfer gets to its end or to the first address that stands for no byte**; that is where it starts, or the
start of a page. -/
structure Extent (s : Ram) (pagetable va len : Nat) (ok : Bool) (m : Nat) : Prop where
  le : m ≤ len
  mapped : ∀ k, k < m → (translate s pagetable (va + k)).isSome
  all : ok = true → m = len
  short : ok = false → m < len ∧ translate s pagetable (va + m) = none ∧ (m = 0 ∨ (va + m) % PGSIZE = 0)

section Extent

variable {va len n m m' : Nat} {ok ok' : Bool}

theorem Extent.done (s : Ram) (pagetable va : Nat) : Extent s pagetable va 0 true 0 :=
  ⟨le_rfl, fun _ hk => absurd hk (Nat.not_lt_zero _), fun _ => rfl, by rintro ⟨⟩⟩

theorem Extent.fail (hpa : walkaddr s pagetable (pgrounddown va) = 0) (hlen : len ≠ 0) :
    Extent s pagetable va len false 0 :=
  ⟨Nat.zero_le _, fun _ hk => absurd hk (Nat.not_lt_zero _), by rintro ⟨⟩,
    fun _ => ⟨pos_of_ne_zero hlen, by rw [add_zero, translate_eq, if_pos hpa], .inl rfl⟩⟩

/-- One page and the rest. -/
theorem Extent.page (hpa : walkaddr s pagetable (pgrounddown va) ≠ 0) (hn : First va len n)
    (h : Extent s pagetable (va + n) (len - n) ok m) : Extent s pagetable va len ok (n + m) := by
  have hle := h.le
  have hnle := hn.le
  refine ⟨by omega, fun k hk => ?_, fun hr => by rw [h.all hr]; omega, fun hr => ?_⟩
  · by_cases hkn : k < n
    · rw [translate_first hpa (lt_of_lt_of_le hkn hn.page)]
      rfl
    · have hs := h.mapped (k - n) (by omega)
      rwa [show va + n + (k - n) = va + k by omega] at hs
  · obtain ⟨hlt, hnone, hbound⟩ := h.short hr
    rw [add_assoc] at hnone hbound
    refine ⟨by omega, hnone, .inr ?_⟩
    rcases hbound with rfl | hbound
    · exact hn.next (by omega)
    · exact hbound

section

variable (h : Extent s pagetable va len ok m)

include h

theorem Extent.ok_iff : ok = true ↔ ∀ k, k < len → (translate s pagetable (va + k)).isSome := by
  refine ⟨fun hok k hk => h.mapped k (by rwa [h.all hok]), fun hall => ?_⟩
  by_contra hok
  obtain ⟨hlt, hnone, -⟩ := h.short (Bool.eq_false_iff.mpr hok)
  have hs := hall m hlt
  rw [hnone] at hs
  cases hs

theorem Extent.congr (hsame : ∀ k, k < len → translate s' pagetable (va + k) = translate s pagetable (va + k)) :
    Extent s' pagetable va len ok m where
  le := h.le
  mapped k hk := by
    rw [hsame k (lt_of_lt_of_le hk h.le)]
    exact h.mapped k hk
  all := h.all
  short hok := by
    obtain ⟨hlt, hnone, hbound⟩ := h.short hok
    exact ⟨hlt, by rw [hsame m hlt, hnone], hbound⟩

/-- There is only one such extent. -/
theorem Extent.unique (h' : Extent s' pagetable va len ok' m')
    (hsame : ∀ k, k < len → (translate s' pagetable (va + k)).isSome = (translate s pagetable (va + k)).isSome) :
    ok' = ok ∧ m' = m := by
  have hok : ok' = ok := by
    rw [Bool.eq_iff_iff, h.ok_iff, h'.ok_iff]
    exact forall₂_congr fun k hk => by rw [hsame k hk]
  subst hok
  refine ⟨rfl, ?_⟩
  rcases hr : ok' with - | -
  · obtain ⟨hlt, hnone, -⟩ := h.short hr
    obtain ⟨hlt', hnone', -⟩ := h'.short hr
    have hm : (translate s' pagetable (va + m)).isSome = false := by rw [hsame m hlt, hnone]; rfl
    have hm' : (translate s pagetable (va + m')).isSome = false := by rw [← hsame m' hlt', hnone']; rfl
    rcases lt_trichotomy m' m with hlt | heq | hgt
    · exact absurd (h.mapped m' hlt) (by rw [hm']; exact Bool.false_ne_true)
    · exact heq
    · exact absurd (h'.mapped m hgt) (by rw [hm]; exact Bool.false_ne_true)
  · rw [h.all hr, h'.all hr]

end

end Extent

/-! ### copyin -/

/-- `memmove`. -/
theorem Pasted.slice {N : Nat} (page : Bytes N) (p : Nat) (dst : Buf) (d n : Nat) :
    Pasted (dst.store d (page.slice p n)) dst d n fun j => page.get (p + j) := fun j => by
  rw [Buf.store, Bytes.slice_length]
  by_cases hj : d ≤ j ∧ j < d + n
  · rw [if_pos hj, if_pos hj, Bytes.slice_getD _ _ (by omega)]
  · rw [if_neg hj, if_neg hj]

section Copyin

variable {dst : Buf} {d va len m m' : Nat} {r r' : Bool × Buf}

/-- What `copyin` does: the bytes as far as it gets, and no others. -/
structure CopiedIn (s : Ram) (pagetable : Nat) (dst : Buf) (d va len m : Nat) (r : Bool × Buf) : Prop where
  extent : Extent s pagetable va len r.1 m
  bytes : Pasted r.2 dst d m fun k => (userByte s pagetable (va + k)).getD 0

theorem copyinLoop_zero (s : Ram) (pagetable fuel : Nat) (dst : Buf) (d va : Nat) :
    copyinLoop s pagetable fuel dst d va 0 = (true, dst) := by
  cases fuel with
  | zero => rfl
  | succ fuel => exact if_pos rfl

theorem copyinLoop_spec (fuel : Nat) (hfuel : len ≤ fuel) :
    ∃ m, CopiedIn s pagetable dst d va len m (copyinLoop s pagetable fuel dst d va len) := by
  induction fuel generalizing dst d va len with
  | zero =>
    obtain rfl : len = 0 := Nat.le_zero.mp hfuel
    exact ⟨0, .done .., Pasted.zero _ _ _⟩
  | succ fuel ih =>
    by_cases hlen : len = 0
    · rw [hlen]
      exact ⟨0, .done .., Pasted.zero _ _ _⟩
    rw [copyinLoop, if_neg hlen]
    dsimp only
    by_cases hpa : walkaddr s pagetable (pgrounddown va) = 0
    · rw [if_pos hpa]
      exact ⟨0, .fail hpa hlen, Pasted.zero _ _ _⟩
    rw [if_neg hpa]
    have hfirst := First.of_min va hlen
    obtain ⟨n, hn⟩ : ∃ n, n = min (PGSIZE - (va - pgrounddown va)) len := ⟨_, rfl⟩
    rw [← hn] at hfirst ⊢
    obtain ⟨dst₁, hdst⟩ : ∃ dst₁, dst₁ = dst.store d ((s.mem (walkaddr s pagetable (pgrounddown va))).slice
      (va - pgrounddown va) n) := ⟨_, rfl⟩
    rw [← hdst]
    have hnext : copyinLoop s pagetable fuel dst₁ (d + n) (u64 (pgrounddown va + PGSIZE)) (len - n)
        = copyinLoop s pagetable fuel dst₁ (d + n) (va + n) (len - n) := by
      by_cases hlt : n < len
      · rw [rest_page hpa hn hlt]
      · rw [show len - n = 0 by omega, copyinLoop_zero, copyinLoop_zero]
    rw [hnext]
    have hpos := hfirst.pos
    obtain ⟨m, hm⟩ : ∃ m, CopiedIn s pagetable dst₁ (d + n) (va + n) (len - n) m _ := ih (by omega)
    have hbytes : Pasted dst₁ dst d n fun k => (userByte s pagetable (va + k)).getD 0 := by
      rw [hdst]
      exact (Pasted.slice _ _ _ _ _).congr fun k hk => by
        rw [userByte_first hpa (lt_of_lt_of_le hk hfirst.page)]
        rfl
    refine ⟨n + m, hm.extent.page hpa hfirst, hbytes.append ?_⟩
    simp only [← add_assoc]
    exact hm.bytes

/-- There is only one such result, and it depends on the bytes of the range only. -/
theorem CopiedIn.unique (h : CopiedIn s pagetable dst d va len m r) (h' : CopiedIn s' pagetable dst d va len m' r')
    (hsame : ∀ k, k < len → userByte s' pagetable (va + k) = userByte s pagetable (va + k)) : r' = r := by
  obtain ⟨hok, rfl⟩ := h.extent.unique h'.extent fun k hk => by
    rw [← isSome_userByte, ← isSome_userByte, hsame k hk]
  refine Prod.ext hok (h.bytes.unique (h'.bytes.congr fun k hk => ?_))
  rw [hsame k (lt_of_lt_of_le hk h.extent.le)]

end Copyin

/-! ### copyout -/

/-- The page-table pages that `walk` reads for an address. -/
def path (s : Ram) (va : Nat) : Nat → Nat → List Nat
  | 0, t => [t]
  | level + 1, t =>
    let pte := s.pte t (px (level + 1) va)
    t :: if has pte PTE_V then path s va level (pte2pa pte) else []

variable {va : Nat}

/-- Nothing of a path changes with other pages. -/
theorem path_congr {level t : Nat} (h : ∀ pg ∈ path s va level t, s'.mem pg = s.mem pg) :
    path s' va level t = path s va level t ∧
      (walkFrom false va level s' t).1 = (walkFrom false va level s t).1 ∧
      ∀ x, (walkFrom false va level s t).1 = some x → s'.mem x.1 = s.mem x.1 := by
  induction level generalizing t with
  | zero =>
    refine ⟨rfl, rfl, fun x hx => h x.1 ?_⟩
    obtain rfl := Option.some.inj hx
    exact mem_singleton_self _
  | succ level ih =>
    have hpte : ∀ i, s'.pte t i = s.pte t i := fun i => by
      rw [Ram.pte, Ram.pte, h t mem_cons_self]
    unfold path walkFrom
    dsimp only
    rw [hpte]
    rw [path] at h
    rcases hv : has (s.pte t (px (level + 1) va)) PTE_V with - | -
    · simp
    · rw [hv] at h
      obtain ⟨ih₁, ih₂, ih₃⟩ := ih fun pg hpg => h pg (mem_cons_of_mem _ hpg)
      exact ⟨by rw [ih₁], ih₂, ih₃⟩

theorem lookup_congr (h : ∀ pg ∈ path s va 2 pagetable, s'.mem pg = s.mem pg) :
    lookup s' pagetable va = lookup s pagetable va := by
  obtain ⟨-, hwalk, hmem⟩ := path_congr h
  unfold lookup
  rw [hwalk]
  rcases hx : (walkFrom false va 2 s pagetable).1 with - | ⟨t, i⟩
  · rfl
  · show s'.pte t i = s.pte t i
    rw [Ram.pte, Ram.pte, hmem _ hx]

theorem translate_congr (h : ∀ pg ∈ path s va 2 pagetable, s'.mem pg = s.mem pg) :
    translate s' pagetable va = translate s pagetable va := by
  unfold translate
  rw [lookup_congr h]

section Copyout

variable {va len n m m' : Nat} {src : List UInt8} {r r' : Bool × Ram}

/-- **No address of a range stands for a byte of the page-table pages** that translate the range. -/
def Apart (s : Ram) (pagetable va len : Nat) : Prop :=
  ∀ k, k < len → ∀ x, translate s pagetable (va + k) = some x → ∀ j, j < len → x.1 ∉ path s (va + j) 2 pagetable

/-- What `copyout` does: the bytes as far as it gets, and no others.  Where several addresses stand for one byte, the
last of them counts. -/
structure CopiedOut (s : Ram) (pagetable va : Nat) (src : List UInt8) (m : Nat) (r : Bool × Ram) : Prop where
  extent : Extent s pagetable va src.length r.1 m
  last : ∀ k, k < m → ∀ x, translate s pagetable (va + k) = some x →
    (∀ k', k < k' → k' < m → translate s pagetable (va + k') ≠ some x) → (r.2.mem x.1).get x.2 = src.getD k 0
  frame : ∀ x : Nat × Nat, (∀ k, k < m → translate s pagetable (va + k) ≠ some x) →
    (r.2.mem x.1).get x.2 = (s.mem x.1).get x.2
  rest : r.2 = { s with mem := r.2.mem }

theorem copyoutLoop_nil (pagetable fuel : Nat) (s : Ram) (a : Nat) : copyoutLoop pagetable fuel s a [] = (true, s) := by
  cases fuel with
  | zero => rfl
  | succ fuel => exact if_pos rfl

theorem CopiedOut.stop (h : Extent s pagetable va src.length ok 0) : CopiedOut s pagetable va src 0 (ok, s) :=
  ⟨h, fun _ hk => absurd hk (Nat.not_lt_zero _), fun _ _ => rfl, rfl⟩

/-- The memory after the part in one page. -/
theorem get_first (pa : Nat) (s : Ram) (hn : First va src.length n) (x : Nat × Nat) :
    ((s.setPage pa ((s.mem pa).patch (va - pgrounddown va) (src.take n))).mem x.1).get x.2 =
      if x.1 = pa ∧ va - pgrounddown va ≤ x.2 ∧ x.2 < va - pgrounddown va + n then src.getD (x.2 - (va - pgrounddown va)) 0
      else (s.mem x.1).get x.2 := by
  obtain ⟨pg, o⟩ := x
  have hlen : (src.take n).length = n := by
    rw [length_take]
    exact min_eq_left hn.le
  rw [Ram.setPage_mem]
  by_cases hpg : pg = pa
  · subst hpg
    rw [update_self]
    by_cases ho : va - pgrounddown va ≤ o ∧ o < va - pgrounddown va + n
    · have hoff := hn.off
      rw [if_pos ⟨rfl, ho⟩, Bytes.get_patch _ _ _ (by omega), if_pos (by omega), getD_eq_getElem?_getD,
        List.getElem?_take_of_lt (by omega), ← getD_eq_getElem?_getD]
    · rw [if_neg fun h => ho h.2]
      by_cases hlt : o < va - pgrounddown va
      · exact Bytes.get_patch_of_lt _ _ hlt
      · exact Bytes.get_patch_of_ge _ _ (by omega)
  · rw [update_of_ne hpg, if_neg fun h => hpg h.1]

/-- One page and the rest, where the rest is translated as before. -/
theorem CopiedOut.page (hpa : walkaddr s pagetable (pgrounddown va) ≠ 0) (hn : First va src.length n)
    (hs' : s' = s.setPage (walkaddr s pagetable (pgrounddown va))
      ((s.mem (walkaddr s pagetable (pgrounddown va))).patch (va - pgrounddown va) (src.take n)))
    (hsame : ∀ k, k < src.length → translate s' pagetable (va + k) = translate s pagetable (va + k))
    (h : CopiedOut s' pagetable (va + n) (src.drop n) m r) : CopiedOut s pagetable va src (n + m) r := by
  have hdrop : (src.drop n).length = src.length - n := length_drop
  have hfirst : ∀ k, k < n → translate s pagetable (va + k) = _ := fun k hk =>
    translate_first hpa (lt_of_lt_of_le hk hn.page)
  have hget := get_first (walkaddr s pagetable (pgrounddown va)) s hn
  rw [← hs'] at hget
  obtain ⟨pa, hpa'⟩ : ∃ pa, pa = walkaddr s pagetable (pgrounddown va) := ⟨_, rfl⟩
  have hle := h.extent.le
  have hnle := hn.le
  have hshift : ∀ k, k < src.length - n →
      translate s' pagetable (va + n + k) = translate s pagetable (va + (n + k)) := fun k hk => by
    rw [add_assoc, hsame (n + k) (by omega)]
  have hext : Extent s pagetable (va + n) (src.length - n) r.1 m := by
    rw [← hdrop]
    exact h.extent.congr fun k hk => by rw [hshift k (by omega), add_assoc]
  refine ⟨hext.page hpa hn, fun k hk x hx hlast => ?_, fun x hno => ?_, ?_⟩
  · by_cases hkn : k < n
    · -- no later address stands for this byte
      rw [h.frame x fun k' hk' => by
        rw [hshift k' (by omega)]
        exact hlast (n + k') (by omega) (by omega)]
      rw [hfirst k hkn] at hx
      obtain rfl := Option.some.inj hx
      rw [hget, if_pos ⟨rfl, by omega, by omega⟩, Nat.add_sub_cancel_left]
    · have hx' := hshift (k - n) (by omega)
      rw [show n + (k - n) = k by omega, hx] at hx'
      rw [h.last (k - n) (by omega) x hx' fun k' h₁ h₂ => by
        rw [hshift k' (by omega)]
        exact hlast (n + k') (by omega) (by omega)]
      rw [getD_eq_getElem?_getD, List.getElem?_drop, show n + (k - n) = k by omega,
        ← getD_eq_getElem?_getD]
  · rw [h.frame x fun k hk => by
      rw [hshift k (by omega)]
      exact hno (n + k) (by omega)]
    rw [hget, if_neg]
    rintro ⟨h₁, h₂, h₃⟩
    refine hno (x.2 - (va - pgrounddown va)) (by omega) ?_
    rw [hfirst _ (by omega), Nat.add_sub_cancel' h₂, ← h₁]
  · rw [h.rest, hs']
    rfl

theorem copyoutLoop_spec (fuel : Nat) (hfuel : src.length ≤ fuel) (hapart : Apart s pagetable va src.length) :
    ∃ m, CopiedOut s pagetable va src m (copyoutLoop pagetable fuel s va src) := by
  induction fuel generalizing s va src with
  | zero =>
    obtain rfl : src = [] := length_eq_zero_iff.mp (Nat.le_zero.mp hfuel)
    exact ⟨0, .stop (.done ..)⟩
  | succ fuel ih =>
    by_cases hsrc : src = []
    · rw [hsrc]
      exact ⟨0, .stop (.done ..)⟩
    have hlen : src.length ≠ 0 := fun h => hsrc (length_eq_zero_iff.mp h)
    rw [copyoutLoop, if_neg hsrc]
    dsimp only
    by_cases hpa : walkaddr s pagetable (pgrounddown va) = 0
    · rw [if_pos hpa]
      exact ⟨0, .stop (.fail hpa hlen)⟩
    rw [if_neg hpa]
    have hfirst := First.of_min va hlen
    obtain ⟨n, hn⟩ : ∃ n, n = min (PGSIZE - (va - pgrounddown va)) src.length := ⟨_, rfl⟩
    rw [← hn] at hfirst ⊢
    obtain ⟨s₁, hs₁⟩ : ∃ s₁, s₁ = s.setPage (walkaddr s pagetable (pgrounddown va))
      ((s.mem (walkaddr s pagetable (pgrounddown va))).patch (va - pgrounddown va) (src.take n)) := ⟨_, rfl⟩
    rw [← hs₁]
    have hnext : copyoutLoop pagetable fuel s₁ (u64 (pgrounddown va + PGSIZE)) (src.drop n)
        = copyoutLoop pagetable fuel s₁ (va + n) (src.drop n) := by
      by_cases hlt : n < src.length
      · rw [rest_page hpa hn hlt]
      · rw [drop_eq_nil_of_le (by omega), copyoutLoop_nil, copyoutLoop_nil]
    rw [hnext]
    -- the page is not one of the table, so the table is the same as before
    have hpos := hfirst.pos
    have hpath : ∀ j, j < src.length → ∀ pg ∈ path s (va + j) 2 pagetable, s₁.mem pg = s.mem pg := by
      intro j hj pg hpg
      rw [hs₁]
      refine update_of_ne ?_ ..
      rintro rfl
      exact hapart 0 (by omega) _ (translate_first hpa (lt_of_lt_of_le hpos hfirst.page)) j hj hpg
    have hsame : ∀ j, j < src.length → translate s₁ pagetable (va + j) = translate s pagetable (va + j) :=
      fun j hj => translate_congr (hpath j hj)
    have hdrop : (src.drop n).length = src.length - n := length_drop
    have hapart' : Apart s₁ pagetable (va + n) (src.drop n).length := by
      intro k hk x hx j hj
      rw [add_assoc, hsame (n + k) (by omega)] at hx
      rw [add_assoc, (path_congr (hpath (n + j) (by omega))).1]
      exact hapart (n + k) (by omega) x hx (n + j) (by omega)
    obtain ⟨m, hm⟩ := ih (by omega) hapart'
    exact ⟨n + m, hm.page hpa hfirst hs₁ hsame⟩

/-- **The loop ends** after as many rounds as there are bytes. -/
theorem copyoutLoop_fuel {fuel fuel' : Nat} (h : src.length ≤ fuel) (h' : src.length ≤ fuel') :
    copyoutLoop pagetable fuel s va src = copyoutLoop pagetable fuel' s va src := by
  induction fuel generalizing fuel' s va src with
  | zero =>
    obtain rfl : src = [] := length_eq_zero_iff.mp (Nat.le_zero.mp h)
    rw [copyoutLoop_nil, copyoutLoop_nil]
  | succ fuel ih =>
    by_cases hsrc : src = []
    · rw [hsrc, copyoutLoop_nil, copyoutLoop_nil]
    have hlen : src.length ≠ 0 := fun h => hsrc (length_eq_zero_iff.mp h)
    obtain ⟨fuel', rfl⟩ : ∃ f, fuel' = f + 1 := ⟨fuel' - 1, by omega⟩
    rw [copyoutLoop, copyoutLoop, if_neg hsrc]
    dsimp only
    have hpos := (First.of_min va hlen).pos
    split
    · rfl
    apply ih
    · rw [length_drop]
      omega
    · rw [length_drop]
      omega

end Copyout

/-! ### copyinstr -/

section Copyinstr

variable {dst : Buf} {d va max k k' : Nat} {r r' : Bool × Buf}

/-- Within a page the string goes on to its NUL, or to the end. -/
theorem strLoop_spec (page : Bytes PGSIZE) (n p : Nat) (dst : Buf) (d max : Nat) : ∃ dst',
    (∃ k, k < n ∧ (∀ j, j < k → page.get (p + j) ≠ 0) ∧ page.get (p + k) = 0 ∧
      strLoop page n p dst d max = (true, dst', d + k, max - k) ∧ Pasted dst' dst d (k + 1) fun j => page.get (p + j)) ∨
    ((∀ j, j < n → page.get (p + j) ≠ 0) ∧ strLoop page n p dst d max = (false, dst', d + n, max - n) ∧
      Pasted dst' dst d n fun j => page.get (p + j)) := by
  induction n generalizing p dst d max with
  | zero => exact ⟨dst, .inr ⟨by omega, rfl, Pasted.zero _ _ _⟩⟩
  | succ n ih =>
    have hone : Pasted (update dst d (page.get p)) dst d 1 fun j => page.get (p + j) :=
      Pasted.one dst d fun j => page.get (p + j)
    by_cases h0 : page.get p = 0
    · rw [h0] at hone
      exact ⟨_, .inl ⟨0, Nat.succ_pos n, by omega, h0, if_pos h0, hone⟩⟩
    have hstep : strLoop page (n + 1) p dst d max
        = strLoop page n (p + 1) (update dst d (page.get p)) (d + 1) (max - 1) := if_neg h0
    have hnext : (fun j => page.get (p + 1 + j)) = fun j => page.get (p + (1 + j)) :=
      funext fun j => by rw [add_assoc]
    have hcons : ∀ {m : Nat}, (∀ j, j < m → page.get (p + 1 + j) ≠ 0) → ∀ j, j < m + 1 → page.get (p + j) ≠ 0 := by
      rintro m h (- | j) hj
      · exact h0
      · rw [add_comm j 1, ← add_assoc]
        exact h j (by omega)
    rw [hstep]
    obtain ⟨dst', ⟨k, hk, hne, hz, hr, hst⟩ | ⟨hne, hr, hst⟩⟩ :=
      ih (p + 1) (update dst d (page.get p)) (d + 1) (max - 1)
    · rw [hnext] at hst
      rw [add_right_comm p 1 k] at hz
      rw [hr, add_right_comm d 1 k, Nat.sub_sub, add_comm 1 k]
      have hall := hone.append hst
      rw [add_comm 1] at hall
      exact ⟨dst', .inl ⟨k + 1, by omega, hcons hne, hz, rfl, hall⟩⟩
    · rw [hnext] at hst
      rw [hr, add_right_comm d 1 n, Nat.sub_sub, add_comm 1 n]
      have hall := hone.append hst
      rw [add_comm 1] at hall
      exact ⟨dst', .inr ⟨hcons hne, rfl, hall⟩⟩

/-- What `copyinstr` does: it stores the bytes that are not NUL, and the NUL if it gets to one. -/
structure CopiedStr (s : Ram) (pagetable : Nat) (dst : Buf) (d va max k : Nat) (r : Bool × Buf) : Prop where
  le : k ≤ max
  nonzero : ∀ j, j < k → ∃ c, userByte s pagetable (va + j) = some c ∧ c ≠ 0
  found : r.1 = true → k < max ∧ userByte s pagetable (va + k) = some 0
  short : r.1 = false → k = max ∨ userByte s pagetable (va + k) = none
  bytes : Pasted r.2 dst d (k + r.1.toNat) fun j => (userByte s pagetable (va + j)).getD 0

theorem copyinstrLoop_zero (s : Ram) (pagetable fuel : Nat) (dst : Buf) (d va : Nat) :
    copyinstrLoop s pagetable fuel dst d va 0 = (false, dst) := by
  cases fuel with
  | zero => rfl
  | succ fuel => exact if_pos rfl

theorem copyinstrLoop_spec (fuel : Nat) (hfuel : max ≤ fuel) :
    ∃ k, CopiedStr s pagetable dst d va max k (copyinstrLoop s pagetable fuel dst d va max) := by
  induction fuel generalizing dst d va max with
  | zero =>
    obtain rfl : max = 0 := Nat.le_zero.mp hfuel
    exact ⟨0, le_rfl, by omega, by rintro ⟨⟩, fun _ => .inl rfl, Pasted.zero _ _ _⟩
  | succ fuel ih =>
    by_cases hmax : max = 0
    · rw [hmax]
      exact ⟨0, le_rfl, by omega, by rintro ⟨⟩, fun _ => .inl rfl, Pasted.zero _ _ _⟩
    rw [copyinstrLoop, if_neg hmax]
    dsimp only
    by_cases hpa : walkaddr s pagetable (pgrounddown va) = 0
    · rw [if_pos hpa]
      exact ⟨0, Nat.zero_le _, by omega, by rintro ⟨⟩, fun _ => .inr (userByte_none hpa), Pasted.zero _ _ _⟩
    rw [if_neg hpa]
    have hfirst := First.of_min va hmax
    obtain ⟨n, hn⟩ : ∃ n, n = min (PGSIZE - (va - pgrounddown va)) max := ⟨_, rfl⟩
    rw [← hn] at hfirst ⊢
    have hbyte : ∀ j, j < n → userByte s pagetable (va + j) = _ := fun j hj =>
      userByte_first hpa (lt_of_lt_of_le hj hfirst.page)
    have hne : ∀ {m : Nat}, m ≤ n →
        (∀ j, j < m → (s.mem (walkaddr s pagetable (pgrounddown va))).get (va - pgrounddown va + j) ≠ 0) →
        ∀ j, j < m → ∃ c, userByte s pagetable (va + j) = some c ∧ c ≠ 0 := fun hm h j hj =>
      ⟨_, hbyte j (by omega), h j hj⟩
    have hstored : ∀ {dst' : Buf} {m : Nat}, m ≤ n → Pasted dst' dst d m
          (fun j => (s.mem (walkaddr s pagetable (pgrounddown va))).get (va - pgrounddown va + j)) →
        Pasted dst' dst d m fun j => (userByte s pagetable (va + j)).getD 0 := fun hm h =>
      h.congr fun j hj => by
        rw [hbyte j (by omega)]
        rfl
    obtain ⟨dst', ⟨k, hk, hnz, hz, hr, hst⟩ | ⟨hnz, hr, hst⟩⟩ := strLoop_spec
      (s.mem (walkaddr s pagetable (pgrounddown va))) n (va - pgrounddown va) dst d max
    · rw [hr]
      have hnle := hfirst.le
      exact ⟨k, by omega, hne hk.le hnz, fun _ => ⟨by omega, by rw [hbyte k hk, hz]⟩, by rintro ⟨⟩,
        hstored (Nat.succ_le_of_lt hk) hst⟩
    · rw [hr]
      dsimp only
      have hnext : copyinstrLoop s pagetable fuel dst' (d + n) (u64 (pgrounddown va + PGSIZE)) (max - n)
          = copyinstrLoop s pagetable fuel dst' (d + n) (va + n) (max - n) := by
        by_cases hlt : n < max
        · rw [rest_page hpa hn hlt]
        · rw [show max - n = 0 by omega, copyinstrLoop_zero, copyinstrLoop_zero]
      rw [hnext]
      have hnle := hfirst.le
      have hpos := hfirst.pos
      obtain ⟨k, hk⟩ : ∃ k, CopiedStr s pagetable dst' (d + n) (va + n) (max - n) k _ := ih (by omega)
      have hkle := hk.le
      refine ⟨n + k, by omega, fun j hj => ?_, fun hok => ?_, fun hok => ?_, ?_⟩
      · by_cases hjn : j < n
        · exact hne le_rfl hnz j hjn
        · have hj' := hk.nonzero (j - n) (by omega)
          rwa [show va + n + (j - n) = va + j by omega] at hj'
      · obtain ⟨hlt, hzero⟩ := hk.found hok
        rw [add_assoc] at hzero
        exact ⟨by omega, hzero⟩
      · rw [← add_assoc]
        exact (hk.short hok).imp (by omega) id
      · rw [add_assoc]
        refine (hstored le_rfl hst).append ?_
        simp only [← add_assoc]
        exact hk.bytes

theorem CopiedStr.stops (h : CopiedStr s pagetable dst d va max k r) (hk : k < max) :
    ¬ ∃ c, userByte s pagetable (va + k) = some c ∧ c ≠ 0 := by
  rintro ⟨c, hc, hne⟩
  rcases hr : r.1 with - | -
  · rcases h.short hr with hlt | hnone
    · omega
    · rw [hnone] at hc
      cases hc
  · rw [(h.found hr).2] at hc
    exact hne (Option.some.inj hc).symm

/-- There is only one such result, and it depends on the bytes up to the NUL only. -/
theorem CopiedStr.unique (h : CopiedStr s pagetable dst d va max k r) (h' : CopiedStr s' pagetable dst d va max k' r')
    (hsame : ∀ j, j < max → (∀ i, i < j → ∃ c, userByte s pagetable (va + i) = some c ∧ c ≠ 0) →
      userByte s' pagetable (va + j) = userByte s pagetable (va + j)) : k' = k ∧ r' = r := by
  have hle := h.le
  have hle' := h'.le
  have hbefore : ∀ j, j < max → j ≤ k → userByte s' pagetable (va + j) = userByte s pagetable (va + j) :=
    fun j hj hjk => hsame j hj fun i hi => h.nonzero i (by omega)
  obtain rfl : k' = k := by
    rcases lt_trichotomy k' k with hlt | heq | hgt
    · refine absurd (h.nonzero k' hlt) ?_
      rw [← hbefore k' (by omega) hlt.le]
      exact h'.stops (by omega)
    · exact heq
    · refine absurd (h'.nonzero k hgt) ?_
      rw [hbefore k (by omega) le_rfl]
      exact h.stops (by omega)
  have hok : r'.1 = r.1 := by
    have hfound : ∀ {s : Ram} {r : Bool × Buf}, CopiedStr s pagetable dst d va max k' r →
        (r.1 = true ↔ k' < max ∧ userByte s pagetable (va + k') = some 0) := by
      intro s r h
      refine ⟨h.found, ?_⟩
      rintro ⟨hlt, hz⟩
      by_contra hr
      rcases h.short (Bool.eq_false_iff.mpr hr) with heq | hnone
      · omega
      · rw [hnone] at hz
        cases hz
    rw [Bool.eq_iff_iff, hfound h, hfound h']
    exact and_congr_right fun hlt => by rw [hbefore k' hlt le_rfl]
  refine ⟨rfl, Prod.ext hok (h.bytes.unique ?_)⟩
  rw [← hok]
  refine h'.bytes.congr fun j hj => ?_
  rcases hr : r'.1 with - | - <;> rw [hr] at hj
  · rw [hbefore j (by exact hj.trans_le hle) (by exact hj.le)]
  · have hlt := (h'.found hr).1
    have hj' : j < k' + 1 := hj
    rw [hbefore j (by omega) (by omega)]

theorem strlen_spec {buf : Buf} {fuel n : Nat} (hk : k < fuel) (hne : ∀ j, j < k → buf (n + j) ≠ 0)
    (hz : buf (n + k) = 0) : strlen buf fuel n = n + k := by
  induction fuel generalizing n k with
  | zero => omega
  | succ fuel ih =>
    cases k with
    | zero => exact if_pos hz
    | succ k =>
      rw [strlen, if_neg (show buf n ≠ 0 from hne 0 (Nat.succ_pos k)), ih (k := k) (by omega), add_assoc, add_comm 1 k]
      · intro j hj
        rw [add_assoc, add_comm 1 j]
        exact hne (j + 1) (by omega)
      · rw [add_assoc, add_comm 1 k]
        exact hz

end Copyinstr

/-! ### The results -/

/-- **`copyin` and `copyout` are exact and confined.**  They return 0 if and only if every address of the range stands for
a byte; they transfer the bytes of the range as far as they get and touch no others, and they come to an end.  For
`copyout` the range must not stand for bytes of the page table itself. -/
theorem copyin_copyout_exact (s : Ram) (pagetable va : Nat) :
    (∀ (dst : Buf) (len : Nat),
      ((copyin s pagetable dst va len).1 = true ↔ ∀ k, k < len → (translate s pagetable (va + k)).isSome) ∧
      (∃ m, CopiedIn s pagetable dst 0 va len m (copyin s pagetable dst va len)) ∧
      (∀ s', (∀ k, k < len → userByte s' pagetable (va + k) = userByte s pagetable (va + k)) →
        copyin s' pagetable dst va len = copyin s pagetable dst va len) ∧
      ∀ fuel, len ≤ fuel → copyinLoop s pagetable fuel dst 0 va len = copyin s pagetable dst va len) ∧
    ∀ src : List UInt8, Apart s pagetable va src.length →
      ((copyout s pagetable va src).1 = true ↔ ∀ k, k < src.length → (translate s pagetable (va + k)).isSome) ∧
      (∃ m, CopiedOut s pagetable va src m (copyout s pagetable va src)) ∧
      ∀ fuel, src.length ≤ fuel → copyoutLoop pagetable fuel s va src = copyout s pagetable va src := by
  refine ⟨fun dst len => ?_, fun src hapart => ?_⟩
  · obtain ⟨m, hm⟩ : ∃ m, CopiedIn s pagetable dst 0 va len m _ := copyinLoop_spec len le_rfl
    refine ⟨hm.extent.ok_iff, ⟨m, hm⟩, fun s' hsame => ?_, fun fuel hfuel => ?_⟩
    · obtain ⟨m', hm'⟩ : ∃ m, CopiedIn s' pagetable dst 0 va len m _ := copyinLoop_spec len le_rfl
      exact hm.unique hm' hsame
    · obtain ⟨m', hm'⟩ : ∃ m, CopiedIn s pagetable dst 0 va len m _ := copyinLoop_spec fuel hfuel
      exact hm.unique hm' fun _ _ => rfl
  · obtain ⟨m, hm⟩ := copyoutLoop_spec src.length le_rfl hapart
    exact ⟨hm.extent.ok_iff, ⟨m, hm⟩, fun fuel hfuel => copyoutLoop_fuel hfuel le_rfl⟩

/-- The page table can be overwritten on the way: the last 8 bytes of the first page are the entry for the second one. -/
theorem copyout_self_mapped : (copyout selfMapped 10 (511 * PGSIZE - 8) (List.replicate 9 0)).1 = false ∧
    ∀ k, k < 9 → (translate selfMapped 10 (511 * PGSIZE - 8 + k)).isSome = true := by
  decide

theorem selfMapped_apart : Apart selfMapped 10 (511 * PGSIZE) 1 := by
  intro k hk x hx j hj
  obtain rfl : k = 0 := by omega
  obtain rfl : j = 0 := by omega
  rw [← Option.some.inj hx]
  decide

theorem copyin_copyout_exact_page : Apart selfMapped 10 (511 * PGSIZE) [(7 : UInt8)].length ∧
    ∃ m, CopiedOut selfMapped 10 (511 * PGSIZE) [7] m (copyout selfMapped 10 (511 * PGSIZE) [7]) :=
  ⟨selfMapped_apart, ((copyin_copyout_exact selfMapped 10 (511 * PGSIZE)).2 [7] selfMapped_apart).2.1⟩

/-- **`copyinstr` is exact.**  It returns 0 if and only if there is a NUL among the first `max` bytes, with bytes at all
addresses up to it; then it has stored the bytes up to the NUL and nothing else, and `fetchstr` returns the length.  It
writes nothing at `max` or beyond, and what it does depends on the bytes up to the NUL only. -/
theorem copyinstr_exact (s : Ram) (pagetable va max : Nat) (dst : Buf) :
    ((copyinstr s pagetable dst va max).1 = true ↔ ∃ k, k < max ∧ userByte s pagetable (va + k) = some 0 ∧
      ∀ j, j < k → (userByte s pagetable (va + j)).isSome) ∧
    (∀ k, k < max → userByte s pagetable (va + k) = some 0 →
      (∀ j, j < k → ∃ c, userByte s pagetable (va + j) = some c ∧ c ≠ 0) →
      (copyinstr s pagetable dst va max).1 = true ∧
      Pasted (copyinstr s pagetable dst va max).2 dst 0 (k + 1) (fun j => (userByte s pagetable (va + j)).getD 0) ∧
      fetchstr s pagetable va dst max = ((k : Int), (copyinstr s pagetable dst va max).2)) ∧
    ((copyinstr s pagetable dst va max).1 = false → (fetchstr s pagetable va dst max).1 = -1) ∧
    (∀ j, max ≤ j → (copyinstr s pagetable dst va max).2 j = dst j) ∧
    (∀ s', (∀ j, j < max → (∀ i, i < j → ∃ c, userByte s pagetable (va + i) = some c ∧ c ≠ 0) →
        userByte s' pagetable (va + j) = userByte s pagetable (va + j)) →
      copyinstr s' pagetable dst va max = copyinstr s pagetable dst va max) ∧
    ∀ fuel, max ≤ fuel → copyinstrLoop s pagetable fuel dst 0 va max = copyinstr s pagetable dst va max := by
  obtain ⟨k, hk⟩ : ∃ k, CopiedStr s pagetable dst 0 va max k (copyinstr s pagetable dst va max) :=
    copyinstrLoop_spec max le_rfl
  obtain ⟨r, hr⟩ : ∃ r, r = copyinstr s pagetable dst va max := ⟨_, rfl⟩
  rw [← hr] at hk ⊢
  have hkle := hk.le
  have hleast : ∀ k', k' < max → userByte s pagetable (va + k') = some 0 →
      (∀ j, j < k' → (userByte s pagetable (va + j)).isSome) → r.1 = true ∧ k ≤ k' := by
    intro k' hlt hz hsome
    have hle : k ≤ k' := by
      by_contra hcon
      obtain ⟨c, hc, hne⟩ := hk.nonzero k' (by omega)
      exact hne (Option.some.inj (hc.symm.trans hz))
    refine ⟨?_, hle⟩
    by_contra hok
    rcases hk.short (Bool.eq_false_iff.mpr hok) with heq | hnone
    · omega
    rcases Nat.lt_or_eq_of_le hle with hlt' | rfl
    · have hs := hsome k hlt'
      rw [hnone] at hs
      cases hs
    · rw [hnone] at hz
      cases hz
  refine ⟨⟨fun hok => ?_, ?_⟩, fun k' hlt hz hne => ?_, fun hok => ?_, fun j hj => ?_, fun s' hsame => ?_,
    fun fuel hfuel => ?_⟩
  · obtain ⟨hlt, hz⟩ := hk.found hok
    refine ⟨k, hlt, hz, fun j hj => ?_⟩
    obtain ⟨c, hc, -⟩ := hk.nonzero j hj
    rw [hc]
    rfl
  · rintro ⟨k', hlt, hz, hsome⟩
    exact (hleast k' hlt hz hsome).1
  · obtain ⟨hok, hle⟩ := hleast k' hlt hz fun j hj => by
      obtain ⟨c, hc, -⟩ := hne j hj
      rw [hc]
      rfl
    -- the NUL that was found is the first one
    obtain rfl : k = k' := by
      by_contra hcon
      obtain ⟨c, hc, hc'⟩ := hne k (by omega)
      exact hc' (Option.some.inj (hc.symm.trans (hk.found hok).2))
    have hbytes := hk.bytes
    rw [hok] at hbytes
    refine ⟨hok, hbytes, ?_⟩
    have hread : ∀ j, j ≤ k → r.2 (0 + j) = (userByte s pagetable (va + j)).getD 0 := fun j hj => by
      rw [Nat.zero_add, hbytes j, if_pos ⟨Nat.zero_le _, by show j < 0 + (k + 1); omega⟩, Nat.sub_zero]
    have hlen : strlen r.2 max 0 = 0 + k := strlen_spec hlt
      (fun j hj => by
        obtain ⟨c, hc, hc'⟩ := hne j hj
        rw [hread j hj.le, hc]
        exact hc')
      (by rw [hread k le_rfl, hz]; rfl)
    rw [fetchstr, ← hr, show r = (true, r.2) from Prod.ext hok rfl]
    dsimp only
    rw [hlen, zero_add]
  · rw [fetchstr, ← hr, show r = (false, r.2) from Prod.ext hok rfl]
  · rw [hk.bytes j, if_neg]
    rintro ⟨-, hlt⟩
    rcases hok : r.1 with - | - <;> rw [hok] at hlt
    · exact absurd hlt (by show ¬ j < 0 + (k + 0); omega)
    · have hkmax := (hk.found hok).1
      exact absurd hlt (by show ¬ j < 0 + (k + 1); omega)
  · obtain ⟨k', hk'⟩ : ∃ k, CopiedStr s' pagetable dst 0 va max k _ := copyinstrLoop_spec max le_rfl
    exact (hk.unique hk' hsame).2
  · obtain ⟨k', hk'⟩ : ∃ k, CopiedStr s pagetable dst 0 va max k _ := copyinstrLoop_spec fuel hfuel
    exact (hk.unique hk' fun _ _ _ => rfl).2

theorem copyinstr_exact_empty : userByte selfMapped 10 (511 * PGSIZE + 0) = some 0 ∧
    fetchstr selfMapped 10 (511 * PGSIZE) (fun _ => 1) 8
      = (0, (copyinstr selfMapped 10 (fun _ => 1) (511 * PGSIZE) 8).2) := by
  have hz : userByte selfMapped 10 (511 * PGSIZE + 0) = some 0 := by decide
  exact ⟨hz, ((copyinstr_exact selfMapped 10 (511 * PGSIZE) 8 fun _ => 1).2.1 0 (by decide) hz (by omega)).2.2⟩

end Xv6.Vm
