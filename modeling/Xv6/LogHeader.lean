/-
Xv6/LogHeader.lean

`struct logheader` of kernel/log.c, in memory and in the header block.

In memory only the first `n` entries of the array `block` are ever read, so a
header is the list of them; that the list fits the array is a field.  In the
header block the count is a signed 32-bit integer at offset `0` and entry `i`
is at offset `4 + 4 * i`.  `store` writes exactly the bytes `write_head`
writes, and leaves the rest of the block alone; `load` reads what `read_head`
reads.  `load_store` is the round trip.
-/
import Xv6.Param

namespace Xv6

/-- The in-memory log header: the block numbers `block[0..n)`. -/
structure LogHeader where
  /-- The first `n` entries of the array. -/
  blocks : List Nat
  /-- They fit the array. -/
  fits : blocks.length ≤ LOGSIZE

namespace LogHeader

/-- The count field. -/
def n (lh : LogHeader) : Nat := lh.blocks.length

/-- The header with `n = 0`. -/
def empty : LogHeader := ⟨[], Nat.zero_le _⟩

@[simp] theorem empty_blocks : empty.blocks = [] := rfl

@[ext] theorem ext {a b : LogHeader} (h : a.blocks = b.blocks) : a = b := by
  cases a; cases b; cases h; rfl

/-! ### The header block -/

/-- A 32-bit field read as a C `int`. -/
def toInt32 (v : Nat) : Int := if v < 2 ^ 31 then v else v - 2 ^ 32

/-- The `n` field of a header block, a C `int`. -/
def headN (hb : Block) : Int := toInt32 (hb.readLE 0 4)

/-- The loop of `write_head`: store `bs` as the entries from index `i` on. -/
def storeBlocks : List Nat → Nat → Block → Block
  | [], _, hb => hb
  | b :: bs, i, hb => storeBlocks bs (i + 1) (hb.writeLE (4 + 4 * i) 4 b)

/-- What `write_head` puts into the header block. -/
def store (lh : LogHeader) (hb : Block) : Block :=
  storeBlocks lh.blocks 0 (hb.writeLE 0 4 lh.n)

/-- The loop of `read_head`: entries `0..k`. -/
def loadBlocks (hb : Block) (k : Nat) : List Nat :=
  (List.range k).map fun i => hb.readLE (4 + 4 * i) 4

/-- What `read_head` makes of a header block.  A count above `LOGSIZE` would
run past the array `log.lh.block`: there is no header then.  A negative count
makes every loop over the header empty, as `0` does. -/
def load (hb : Block) : Option LogHeader :=
  if h : (headN hb).toNat ≤ LOGSIZE then
    some ⟨loadBlocks hb (headN hb).toNat, by simpa [loadBlocks] using h⟩
  else none

/-! ### Round trip -/

theorem storeBlocks_readLE_before (bs : List Nat) (i off k : Nat) (hb : Block) (h : off + k ≤ 4 + 4 * i) :
    (storeBlocks bs i hb).readLE off k = hb.readLE off k := by
  induction bs generalizing i hb with
  | nil => rfl
  | cons b bs ih =>
    rw [storeBlocks, ih (i + 1) _ (by omega)]
    exact Bytes.readLE_writeLE_disjoint hb b (Or.inl h)

theorem storeBlocks_readLE (bs : List Nat) (i : Nat) (hb : Block)
    (hfit : 4 + 4 * (i + bs.length) ≤ BSIZE) (hlt : ∀ b ∈ bs, b < 2 ^ 32)
    {j : Nat} (hj : j < bs.length) :
    (storeBlocks bs i hb).readLE (4 + 4 * (i + j)) 4 = bs[j] := by
  induction bs generalizing i hb j with
  | nil => cases hj
  | cons b bs ih =>
    simp only [List.length_cons] at hfit hj
    rw [storeBlocks]
    cases j with
    | zero =>
      rw [storeBlocks_readLE_before bs (i + 1) _ 4 _ (by omega)]
      exact Bytes.readLE_writeLE_self hb (by omega) (by simpa using hlt b (by simp))
    | succ j =>
      have hih := ih (i + 1) (hb.writeLE (4 + 4 * i) 4 b) (by omega)
        (fun c hc => hlt c (List.mem_cons_of_mem _ hc)) (j := j) (by omega)
      rw [show i + (j + 1) = i + 1 + j by omega, hih]
      rfl

theorem headN_store (lh : LogHeader) (hb : Block) : headN (lh.store hb) = lh.n := by
  have hn : lh.n ≤ 30 := lh.fits
  have hlt : lh.n < 256 ^ 4 := lt_of_le_of_lt hn (by norm_num)
  have hread : (lh.store hb).readLE 0 4 = lh.n := by
    rw [store, storeBlocks_readLE_before _ _ _ _ _ (by omega)]
    exact Bytes.readLE_writeLE_self hb (by simp [BSIZE]) hlt
  rw [headN, hread, toInt32, if_pos (by omega)]

/-- **Round trip.**  `read_head` reads back the header `write_head` wrote,
whatever the header block held before. -/
theorem load_store (lh : LogHeader) (hb : Block) (hlt : ∀ b ∈ lh.blocks, b < 2 ^ 32) :
    load (lh.store hb) = some lh := by
  have hn : (headN (lh.store hb)).toNat = lh.blocks.length := by
    rw [headN_store]; rfl
  have hlen : lh.blocks.length ≤ 30 := lh.fits
  rw [load, dif_pos (by rw [hn]; exact lh.fits)]
  refine congrArg some (LogHeader.ext ?_)
  refine List.ext_getElem (by simp [loadBlocks, hn]) fun i h₁ h₂ => ?_
  have h := storeBlocks_readLE lh.blocks 0 (hb.writeLE 0 4 lh.n)
    (by simp only [BSIZE]; omega) hlt h₂
  simpa [loadBlocks, store] using h

/-- A header block with `n = 0` loads as the empty header. -/
theorem load_of_headN_zero {hb : Block} (h : headN hb = 0) : load hb = some empty := by
  have h0 : (headN hb).toNat = 0 := by rw [h]; rfl
  rw [load, dif_pos (by rw [h0]; exact Nat.zero_le _)]
  refine congrArg some (LogHeader.ext ?_)
  simp [loadBlocks, h0]

end LogHeader

end Xv6
