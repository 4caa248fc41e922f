/-
Xv6/Vm.lean

Physical pages and user page tables: kernel/kalloc.c and kernel/vm.c.

A page is named by its number, its address divided by `PGSIZE`; the memory gives
each page its bytes.  A page-table page is a page like any other, whose bytes are
512 words of 8 bytes.  Addresses and sizes are 64-bit words, as numbers.

The free list is a list of pages.  `kalloc` returns 0 when it is empty, and may do
so at any other call as well, as `refuse` says.

Where the source has a loop over addresses, the definition counts its rounds.  An
address at or above `MAXVA` makes `walk` panic, so that none of these loops goes on
until an address wraps around.
-/
import Xv6.Lib.Bytes
import Xv6.Lib.Radix
import Xv6.Lib.Safe

namespace Xv6.Vm

open Function

/-! ### Addresses -/

/-- Bytes per page. -/
def PGSIZE : Nat := 4096

/-- One beyond the highest possible virtual address. -/
def MAXVA : Nat := 2 ^ 38

/-- The trampoline page is at the highest address. -/
def TRAMPOLINE : Nat := MAXVA - PGSIZE

def TRAPFRAME : Nat := TRAMPOLINE - PGSIZE

def KERNBASE : Nat := 0x80000000

def PHYSTOP : Nat := KERNBASE + 128 * 1024 * 1024

/-- A number as a 64-bit word. -/
def u64 (x : Nat) : Nat := x % 2 ^ 64

def pgroundup (sz : Nat) : Nat := u64 (sz + PGSIZE - 1) / PGSIZE * PGSIZE

def pgrounddown (a : Nat) : Nat := a / PGSIZE * PGSIZE

/-- The 9 bits of a virtual address that are the index at a level. -/
def px (level va : Nat) : Fin 512 := ⟨va / 2 ^ (12 + 9 * level) % 512, Nat.mod_lt _ (by decide)⟩

/-! ### Page-table entries -/

def PTE_V : Nat := 1

def PTE_R : Nat := 2

def PTE_W : Nat := 4

def PTE_X : Nat := 8

def PTE_U : Nat := 16

/-- `PA2PTE`, of a page. -/
def pa2pte (pg : Nat) : Nat := pg <<< 10

/-- `PTE2PA`, as a page. -/
def pte2pa (pte : Nat) : Nat := pte >>> 10 % 2 ^ 52

/-- `PTE_FLAGS`. -/
def pteFlags (pte : Nat) : Nat := pte % 1024

/-- A bit of an entry is set. -/
def has (pte bit : Nat) : Bool := pte &&& bit ≠ 0

/-! ### Memory -/

structure Ram where
  mem : Nat → Bytes PGSIZE
  /-- `kmem.freelist`. -/
  freelist : List Nat
  /-- The first page after the kernel, `PGROUNDUP(end)`. -/
  first : Nat
  /-- The calls of `kalloc` that return 0 in any case. -/
  refuse : Nat → Bool
  /-- How often `kalloc` has been called. -/
  calls : Nat

/-- The page after the last one. -/
def LASTPAGE : Nat := PHYSTOP / PGSIZE

/-- A page that `memset` has filled. -/
def fill (b : UInt8) : Bytes PGSIZE := fun _ => b

namespace Ram

variable (s : Ram)

@[simps] def setPage (pg : Nat) (b : Bytes PGSIZE) : Ram := { s with mem := update s.mem pg b }

@[simps] def setFree (l : List Nat) : Ram := { s with freelist := l }

/-- Entry `i` of a page-table page. -/
def pte (pg : Nat) (i : Fin 512) : Nat := (s.mem pg).readLE (8 * i) 8

/-- Store an entry. -/
def setPte (pg : Nat) (i : Fin 512) (v : Nat) : Ram := s.setPage pg ((s.mem pg).writeLE (8 * i) 8 v)

end Ram

/-- Allocate one page of physical memory. -/
def kalloc (s : Ram) : Option Nat × Ram :=
  let s' := { s with calls := s.calls + 1 }
  if s.refuse s.calls then (none, s')
  else
    match s.freelist with
    | [] => (none, s')
    -- fill with junk
    | r :: rest => (some r, (s'.setFree rest).setPage r (fill 5))

/-- Free a page of physical memory. -/
def kfree (s : Ram) (pg : Nat) : Except String Ram :=
  if pg < s.first ∨ LASTPAGE ≤ pg then .error "kfree"
  -- fill with junk to catch dangling refs
  else .ok ((s.setPage pg (fill 1)).setFree (pg :: s.freelist))

/-! ### Page tables -/

/-- The loop of `walk`, from a level on. -/
def walkFrom (alloc : Bool) (va : Nat) : Nat → Ram → Nat → Option (Nat × Fin 512) × Ram
  | 0, s, t => (some (t, px 0 va), s)
  | level + 1, s, t =>
    let i := px (level + 1) va
    let pte := s.pte t i
    if has pte PTE_V then walkFrom alloc va level s (pte2pa pte)
    else if alloc = false then (none, s)
    else
      match kalloc s with
      | (none, s) => (none, s)
      | (some pg, s) =>
        let s := s.setPage pg (fill 0)
        let s := s.setPte t i (pa2pte pg ||| PTE_V)
        walkFrom alloc va level s pg

/-- Return the page and the index of the PTE that corresponds to virtual address `va`.  If
`alloc`, create any required page-table pages. -/
def walk (s : Ram) (pagetable va : Nat) (alloc : Bool) : Except String (Option (Nat × Fin 512) × Ram) :=
  if MAXVA ≤ va then .error "walk" else .ok (walkFrom alloc va 2 s pagetable)

/-- Look up a virtual address, return the physical page, or 0 if not mapped. -/
def walkaddr (s : Ram) (pagetable va : Nat) : Nat :=
  if MAXVA ≤ va then 0
  else
    match (walkFrom false va 2 s pagetable).1 with
    | none => 0
    | some (t, i) =>
      let pte := s.pte t i
      if has pte PTE_V = false then 0
      else if has pte PTE_U = false then 0
      else pte2pa pte

/-- The loop of `mappages`. -/
def mapLoop (pagetable perm : Nat) : Nat → Ram → Nat → Nat → Except String (Bool × Ram)
  | 0, s, _, _ => .ok (true, s)
  | n + 1, s, a, pg => do
    match ← walk s pagetable a true with
    | (none, s) => return (false, s)
    | (some (t, i), s) =>
      if has (s.pte t i) PTE_V then .error "mappages: remap"
      else
        mapLoop pagetable perm n (s.setPte t i (pa2pte pg ||| perm ||| PTE_V)) (u64 (a + PGSIZE))
          ((pg + 1) % 2 ^ 52)

/-- Create PTEs for virtual addresses starting at `va` that refer to the pages from `pg` on.
Fails if `walk` couldn't allocate a needed page-table page. -/
def mappages (s : Ram) (pagetable va size pg perm : Nat) : Except String (Bool × Ram) :=
  if size = 0 then .error "mappages: size"
  else
    let a := pgrounddown va
    let last := pgrounddown (u64 (va + size - 1))
    mapLoop pagetable perm (u64 (last + 2 ^ 64 - a) / PGSIZE + 1) s a pg

/-- The loop of `uvmunmap`. -/
def unmapLoop (pagetable : Nat) (do_free : Bool) : Nat → Ram → Nat → Except String Ram
  | 0, s, _ => .ok s
  | n + 1, s, a => do
    match ← walk s pagetable a false with
    | (none, _) => .error "uvmunmap: walk"
    | (some (t, i), s) =>
      let pte := s.pte t i
      if has pte PTE_V = false then .error "uvmunmap: not mapped"
      else if pteFlags pte = PTE_V then .error "uvmunmap: not a leaf"
      else
        let s ← if do_free then kfree s (pte2pa pte) else .ok s
        unmapLoop pagetable do_free n (s.setPte t i 0) (a + PGSIZE)

/-- Remove `npages` of mappings starting from `va`.  Optionally free the physical memory. -/
def uvmunmap (s : Ram) (pagetable va npages : Nat) (do_free : Bool) : Except String Ram :=
  if va % PGSIZE ≠ 0 then .error "uvmunmap: not aligned"
  else unmapLoop pagetable do_free ((u64 (va + npages * PGSIZE) - va + PGSIZE - 1) / PGSIZE) s va

/-- Create an empty user page table. -/
def uvmcreate (s : Ram) : Option Nat × Ram :=
  match kalloc s with
  | (none, s) => (none, s)
  | (some pg, s) => (some pg, s.setPage pg (fill 0))

/-- An `int` that is passed as a `uint64`. -/
def ofInt32 (x : Nat) : Nat := if x % 2 ^ 32 < 2 ^ 31 then x % 2 ^ 32 else u64 (x % 2 ^ 32 + 2 ^ 64 - 2 ^ 32)

/-- Deallocate user pages to bring the process size from `oldsz` to `newsz`.  Returns the new
process size. -/
def uvmdealloc (s : Ram) (pagetable oldsz newsz : Nat) : Except String (Nat × Ram) :=
  if oldsz ≤ newsz then .ok (oldsz, s)
  else if pgroundup newsz < pgroundup oldsz then do
    let npages := ofInt32 ((pgroundup oldsz - pgroundup newsz) / PGSIZE)
    let s ← uvmunmap s pagetable (pgroundup newsz) npages true
    return (newsz, s)
  else .ok (newsz, s)

/-- The loop of `uvmalloc`. -/
def allocLoop (pagetable oldsz newsz : Nat) : Nat → Ram → Nat → Except String (Nat × Ram)
  | 0, s, _ => .ok (newsz, s)
  | n + 1, s, a =>
    match kalloc s with
    | (none, s) => do
      let (_, s) ← uvmdealloc s pagetable a oldsz
      return (0, s)
    | (some mem, s) => do
      let s := s.setPage mem (fill 0)
      let (ok, s) ← mappages s pagetable a PGSIZE mem (PTE_W ||| PTE_X ||| PTE_R ||| PTE_U)
      if ok then allocLoop pagetable oldsz newsz n s (a + PGSIZE)
      else
        let s ← kfree s mem
        let (_, s) ← uvmdealloc s pagetable a oldsz
        return (0, s)

/-- Allocate PTEs and physical memory to grow process from `oldsz` to `newsz`, which need not be
page aligned.  Returns new size or 0 on error. -/
def uvmalloc (s : Ram) (pagetable oldsz newsz : Nat) : Except String (Nat × Ram) :=
  if newsz < oldsz then .ok (oldsz, s)
  else
    let oldsz := pgroundup oldsz
    allocLoop pagetable oldsz newsz ((newsz - oldsz + PGSIZE - 1) / PGSIZE) s oldsz

/-- Recursively free page-table pages; the level bounds the recursion.  All leaf mappings must
already have been removed. -/
def freewalk : Nat → Ram → Nat → Except String Ram
  | level, s, pagetable => do
    let s ← (List.finRange 512).foldlM (fun s i =>
      let pte := s.pte pagetable i
      if has pte PTE_V = true ∧ has pte (PTE_R ||| PTE_W ||| PTE_X) = false then
        match level with
        | 0 => .error "freewalk: no table"
        | level + 1 => do
          -- this PTE points to a lower-level page table
          let s ← freewalk level s (pte2pa pte)
          return s.setPte pagetable i 0
      else if has pte PTE_V then .error "freewalk: leaf"
      else .ok s) s
    kfree s pagetable

/-- Free user memory pages, then free page-table pages. -/
def uvmfree (s : Ram) (pagetable sz : Nat) : Except String Ram := do
  let s ← if 0 < sz then uvmunmap s pagetable 0 (pgroundup sz / PGSIZE) true else .ok s
  freewalk 2 s pagetable

/-- The loop of `uvmcopy`; returns how far it has come. -/
def copyLoop (old new : Nat) : Nat → Ram → Nat → Except String (Option Nat × Ram)
  | 0, s, _ => .ok (none, s)
  | n + 1, s, i => do
    match ← walk s old i false with
    | (none, _) => .error "uvmcopy: pte should exist"
    | (some (t, j), s) =>
      let pte := s.pte t j
      if has pte PTE_V = false then .error "uvmcopy: page not present"
      else
        match kalloc s with
        | (none, s) => return (some i, s)
        | (some mem, s) => do
          let s := s.setPage mem (s.mem (pte2pa pte))
          let (ok, s) ← mappages s new i PGSIZE mem (pteFlags pte)
          if ok then copyLoop old new n s (i + PGSIZE)
          else
            let s ← kfree s mem
            return (some i, s)

/-- Given a parent process's page table, copy its memory into a child's page table.  Frees any
allocated pages on failure. -/
def uvmcopy (s : Ram) (old new sz : Nat) : Except String (Bool × Ram) := do
  match ← copyLoop old new ((sz + PGSIZE - 1) / PGSIZE) s 0 with
  | (none, s) => return (true, s)
  | (some i, s) =>
    let s ← uvmunmap s new 0 (i / PGSIZE) true
    return (false, s)

/-- Mark a PTE invalid for user access. -/
def uvmclear (s : Ram) (pagetable va : Nat) : Except String Ram := do
  match ← walk s pagetable va false with
  | (none, _) => .error "uvmclear"
  | (some (t, i), s) => return s.setPte t i (s.pte t i &&& (2 ^ 64 - 1 - PTE_U))

/-! ### Copying -/

/-- A kernel buffer, from its first byte on.  It has no end here, so that one sees what is written. -/
abbrev Buf : Type := Nat → UInt8

/-- `memmove` to position `d` of a buffer. -/
def Buf.store (dst : Buf) (d : Nat) (bytes : List UInt8) : Buf := fun j =>
  if d ≤ j ∧ j < d + bytes.length then bytes.getD (j - d) 0 else dst j

/-- The loop of `copyout`; the fuel is the number of bytes. -/
def copyoutLoop (pagetable : Nat) : Nat → Ram → Nat → List UInt8 → Bool × Ram
  | 0, s, _, _ => (true, s)
  | fuel + 1, s, dstva, src =>
    if src = [] then (true, s)
    else
      let va0 := pgrounddown dstva
      let pa0 := walkaddr s pagetable va0
      if pa0 = 0 then (false, s)
      else
        let n := min (PGSIZE - (dstva - va0)) src.length
        let s := s.setPage pa0 ((s.mem pa0).patch (dstva - va0) (src.take n))
        copyoutLoop pagetable fuel s (u64 (va0 + PGSIZE)) (src.drop n)

/-- Copy from kernel to user. -/
def copyout (s : Ram) (pagetable dstva : Nat) (src : List UInt8) : Bool × Ram :=
  copyoutLoop pagetable src.length s dstva src

/-- The loop of `copyin`, to position `d` of the buffer. -/
def copyinLoop (s : Ram) (pagetable : Nat) : Nat → Buf → Nat → Nat → Nat → Bool × Buf
  | 0, dst, _, _, _ => (true, dst)
  | fuel + 1, dst, d, srcva, len =>
    if len = 0 then (true, dst)
    else
      let va0 := pgrounddown srcva
      let pa0 := walkaddr s pagetable va0
      if pa0 = 0 then (false, dst)
      else
        let n := min (PGSIZE - (srcva - va0)) len
        copyinLoop s pagetable fuel (dst.store d ((s.mem pa0).slice (srcva - va0) n)) (d + n)
          (u64 (va0 + PGSIZE)) (len - n)

/-- Copy from user to kernel. -/
def copyin (s : Ram) (pagetable : Nat) (dst : Buf) (srcva len : Nat) : Bool × Buf :=
  copyinLoop s pagetable len dst 0 srcva len

/-- The inner loop of `copyinstr`: the bytes of one page from `p` on, to position `d` of the buffer.  Tells
whether there was a NUL. -/
def strLoop (page : Bytes PGSIZE) : Nat → Nat → Buf → Nat → Nat → Bool × Buf × Nat × Nat
  | 0, _, dst, d, max => (false, dst, d, max)
  | n + 1, p, dst, d, max =>
    if page.get p = 0 then (true, update dst d 0, d, max)
    else strLoop page n (p + 1) (update dst d (page.get p)) (d + 1) (max - 1)

/-- The loop of `copyinstr`. -/
def copyinstrLoop (s : Ram) (pagetable : Nat) : Nat → Buf → Nat → Nat → Nat → Bool × Buf
  | 0, dst, _, _, _ => (false, dst)
  | fuel + 1, dst, d, srcva, max =>
    if max = 0 then (false, dst)
    else
      let va0 := pgrounddown srcva
      let pa0 := walkaddr s pagetable va0
      if pa0 = 0 then (false, dst)
      else
        let n := min (PGSIZE - (srcva - va0)) max
        match strLoop (s.mem pa0) n (srcva - va0) dst d max with
        | (true, dst, _, _) => (true, dst)
        | (false, dst, d, max) => copyinstrLoop s pagetable fuel dst d (u64 (va0 + PGSIZE)) max

/-- Copy a null-terminated string from user to kernel, until a NUL, or `max`. -/
def copyinstr (s : Ram) (pagetable : Nat) (dst : Buf) (srcva max : Nat) : Bool × Buf :=
  copyinstrLoop s pagetable max dst 0 srcva max

/-- The loop of `strlen`; the fuel is the size of the buffer. -/
def strlen (buf : Buf) : Nat → Nat → Nat
  | 0, n => n
  | fuel + 1, n => if buf n = 0 then n else strlen buf fuel (n + 1)

/-- Fetch the nul-terminated string at `addr`.  Returns length of string, not including nul, or -1 for
error. -/
def fetchstr (s : Ram) (pagetable addr : Nat) (buf : Buf) (max : Nat) : Int × Buf :=
  match copyinstr s pagetable buf addr max with
  | (true, buf) => (strlen buf max 0, buf)
  | (false, buf) => (-1, buf)

end Xv6.Vm
