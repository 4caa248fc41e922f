/-
Xv6/LogCrash.lean

Crash atomicity of the write-ahead log.

A crash can hit `commit` between any two of its writes, and then recovery, any
number of times, between any two of its own.  Two kinds of disks cover
everything that can be met (`d₀` being the disk before the transaction `t`):

* `Clean d e` — the on-disk header is empty, and outside the log area `e` is
  `d`; here recovery has nothing to do;
* `Logged t d₀ e` — the header and the log blocks hold `t`, and outside the log
  area `e` is `d₀` except that home blocks of `t` may hold anything.

Before the header write a crashed `commit` leaves `Clean d₀`, after it
`Logged t d₀` or `Clean` of the installed disk.  Recovery turns `Logged` into
the latter, and every crash of it stays within these two (`crashAt_logged`):
replaying the log is idempotent because it rewrites every home block.
-/
import Xv6.LogDisk

namespace Xv6.LogDisk

open Function List LogHeader Prod

section Crash

variable (start size : Nat)

/-- Block `b` lies outside the log area `[start, start + size)`. -/
def Outside (b : Nat) : Prop := b < start ∨ start + size ≤ b

/-- The header on disk is empty, and outside the log area the disk is `d`. -/
structure Clean (d e : Disk) : Prop where
  head : headN (e start) = 0
  home : ∀ b, Outside start size b → e b = d b

/-- The transaction `t` is in the log; its home blocks may hold anything. -/
structure Logged (lh : LogHeader) (t : Writes Nat Block) (d e : Disk) : Prop where
  head : load (e start) = some lh
  log : ∀ i (h : i < t.length), e (start + i + 1) = t[i].2
  home : ∀ b, Outside start size b → b ∉ t.map fst → e b = d b

/-- A transaction: block numbers outside the log area, no two the same, and a
log area with room for all of them and the header. -/
structure Transaction (lh : LogHeader) (t : Writes Nat Block) : Prop where
  blocks : lh.blocks = t.map fst
  nodup : (t.map fst).Nodup
  room : t.length + 1 ≤ size
  outside : ∀ w ∈ t, Outside start size w.1

variable {start size} {lh : LogHeader} {t : Writes Nat Block} {d e : Disk} {b : Nat}

section

variable (ht : Transaction start size lh t)

include ht

theorem Transaction.clear : Clear start t.length t := by
  intro w hw
  have hr := ht.room
  rcases ht.outside w hw with h | h
  · exact Or.inl h.le
  · exact Or.inr (by omega)

theorem Transaction.start_notMem : start ∉ t.map fst := by
  intro hm
  obtain ⟨w, hw, he⟩ := mem_map.mp hm
  have hr := ht.room
  rcases ht.outside w hw with h | h <;> omega

theorem Transaction.log_notMem {i : Nat} (hi : i < t.length) : start + i + 1 ∉ t.map fst := by
  intro hm
  obtain ⟨w, hw, he⟩ := mem_map.mp hm
  have hr := ht.room
  rcases ht.outside w hw with h | h <;> omega

end

theorem outside_ne_start (hs : 1 ≤ size) (hb : Outside start size b) : b ≠ start := by
  rcases hb with h | h <;> omega

theorem headN_empty_store (hb : Block) : headN (empty.store hb) = 0 :=
  headN_store empty hb

/-! ### Recovery -/

/-- Erasing the header of a disk that is `d` outside the log area cleans it. -/
theorem clean_of_erase (hs : 1 ≤ size) (hb : Block) (h : ∀ b, Outside start size b → e b = d b) :
    Clean start size d (update e start (empty.store hb)) := by
  refine ⟨?_, fun b hout => ?_⟩
  · rw [update_self]; exact headN_empty_store hb
  · rw [update_of_ne (outside_ne_start hs hout)]
    exact h b hout

/-- Installing part of the transaction keeps it in the log. -/
theorem Logged.install_take (ht : Transaction start size lh t) (h : Logged start size lh t d e) (k : Nat) :
    Logged start size lh t d (applyWrites (t.take k) e) := by
  have hsub : ∀ {b}, b ∈ (t.take k).map fst → b ∈ t.map fst := fun hb =>
    ((take_sublist k t).map fst).subset hb
  refine ⟨?_, fun i hi => ?_, fun b hout hn => ?_⟩
  · rw [applyWrites_of_notMem fun hb => ht.start_notMem (hsub hb)]; exact h.head
  · rw [applyWrites_of_notMem fun hb => ht.log_notMem hi (hsub hb)]; exact h.log i hi
  · rw [applyWrites_of_notMem fun hb => hn (hsub hb)]; exact h.home b hout hn

/-- Installing all of it gives, outside the log area, the disk with the
transaction applied. -/
theorem Logged.install_all (h : Logged start size lh t d e)
    (hout : Outside start size b) : applyWrites t e b = applyWrites t d b :=
  applyWrites_congr (h.home b hout)

/-- The programs recovery may run: `recover_from_log` on freshly booted memory,
under any recycling of buffers. -/
def recoveries (start : Nat) : Set (DiskProg Nat Block (Unit × Mem)) :=
  {r | ∃ recycle, r = recoverFromLog start (Mem.boot recycle)}

variable {r : DiskProg Nat Block (Unit × Mem)}

/-- Recovery of a clean disk only rewrites the empty header. -/
theorem recovery_writes_clean (h : Clean start size d e) (hr : r ∈ recoveries start) :
    ∃ hb, r.writes e = [(start, empty.store hb)] := by
  obtain ⟨recycle, rfl⟩ := hr
  exact recoverFromLog_writes start recycle (t := []) (load_of_headN_zero h.head) rfl
    (fun i hi => absurd hi (by simp)) (fun w hw => absurd hw (by simp))

/-- Recovery of a logged transaction installs it and erases the header. -/
theorem recovery_writes_logged (ht : Transaction start size lh t) (h : Logged start size lh t d e)
    (hr : r ∈ recoveries start) :
    ∃ hb, r.writes e = t ++ [(start, empty.store hb)] := by
  obtain ⟨recycle, rfl⟩ := hr
  exact recoverFromLog_writes start recycle h.head ht.blocks h.log ht.clear

theorem crashAt_clean (hs : 1 ≤ size) (h : Clean start size d e) (hr : r ∈ recoveries start) (k : Nat) :
    Clean start size d (r.crashAt e k) := by
  obtain ⟨hb, hw⟩ := recovery_writes_clean h hr
  rw [DiskProg.crashAt, hw]
  cases k with
  | zero => exact h
  | succ k => simpa using clean_of_erase hs hb h.home

theorem final_clean (hs : 1 ≤ size) (h : Clean start size d e) (hr : r ∈ recoveries start) :
    Clean start size d (r.final e) := by
  obtain ⟨hb, hw⟩ := recovery_writes_clean h hr
  rw [DiskProg.final, hw]
  exact clean_of_erase hs hb h.home

/-- A crash during the replay leaves the transaction in the log or installed. -/
theorem crashAt_logged (ht : Transaction start size lh t) (h : Logged start size lh t d e)
    (hr : r ∈ recoveries start) (k : Nat) :
    Logged start size lh t d (r.crashAt e k) ∨
      Clean start size (applyWrites t d) (r.crashAt e k) := by
  have hs : 1 ≤ size := by have := ht.room; omega
  obtain ⟨hb, hw⟩ := recovery_writes_logged ht h hr
  rw [DiskProg.crashAt, hw]
  by_cases hk : k ≤ t.length
  · rw [take_append_of_le_length hk]
    exact Or.inl (h.install_take ht k)
  · right
    rw [take_of_length_le (by simp; omega), applyWrites_append]
    exact clean_of_erase hs hb fun b hout => h.install_all hout

theorem final_logged (ht : Transaction start size lh t) (h : Logged start size lh t d e) (hr : r ∈ recoveries start) :
    Clean start size (applyWrites t d) (r.final e) := by
  have hs : 1 ≤ size := by have := ht.room; omega
  obtain ⟨hb, hw⟩ := recovery_writes_logged ht h hr
  rw [DiskProg.final, hw, applyWrites_append]
  exact clean_of_erase hs hb fun b hout => h.install_all hout

variable {e' : Disk}

/-- Recovery of a clean disk, interrupted as often as one likes. -/
theorem recovers_clean (hs : 1 ≤ size) (h : Clean start size d e)
    (hrec : DiskProg.Recovers (recoveries start) e e') : Clean start size d e' :=
  hrec.of_invariant (I := Clean start size d) (fun _ hr _ k hd => crashAt_clean hs hd hr k)
    (fun _ hr _ hd => final_clean hs hd hr) h

/-- Recovery of a logged transaction, interrupted as often as one likes. -/
theorem recovers_logged (ht : Transaction start size lh t)
    (h : Logged start size lh t d e ∨ Clean start size (applyWrites t d) e)
    (hrec : DiskProg.Recovers (recoveries start) e e') :
    Clean start size (applyWrites t d) e' := by
  have hs : 1 ≤ size := by have := ht.room; omega
  refine hrec.of_invariant
    (I := fun e => Logged start size lh t d e ∨ Clean start size (applyWrites t d) e) ?_ ?_ h
  · rintro r hr e k (hl | hc)
    · exact crashAt_logged ht hl hr k
    · exact Or.inr (crashAt_clean hs hc hr k)
  · rintro r hr e (hl | hc)
    · exact final_logged ht hl hr
    · exact final_clean hs hc hr

/-! ### Commit -/

theorem logWrites_length (tail : Nat) : (logWrites start tail t).length = t.length := by
  induction t generalizing tail with
  | nil => rfl
  | cons w t ih => simp [logWrites, ih]

/-- Writes to log blocks are invisible outside the log area and to the header. -/
theorem applyWrites_logWrites_take (hroom : t.length + 1 ≤ size) (k : Nat) (hb : Outside start size b ∨ b = start) :
    applyWrites ((logWrites start 0 t).take k) d b = d b := by
  refine applyWrites_of_notMem fun hm => ?_
  obtain ⟨w, hw, he⟩ := mem_map.mp hm
  have hw' := mem_logWrites start (mem_of_mem_take hw)
  rcases hb with (h | h) | h <;> omega

/-- The disk right after the first header write holds the transaction. -/
theorem logged_of_head (ht : Transaction start size lh t) (hlt : ∀ b ∈ lh.blocks, b < 2 ^ 32) (hb : Block) :
    Logged start size lh t d
      (update (applyWrites (logWrites start 0 t) d) start (lh.store hb)) := by
  have hs : 1 ≤ size := by have := ht.room; omega
  refine ⟨?_, fun i hi => ?_, fun b hout _ => ?_⟩
  · rw [update_self]; exact load_store lh hb hlt
  · rw [update_of_ne (by omega)]
    have h := applyWrites_logWrites_log start t 0 d i hi
    rwa [Nat.zero_add] at h
  · rw [update_of_ne (outside_ne_start hs hout)]
    have h := applyWrites_logWrites_take (d := d) ht.room t.length (Or.inl hout)
    rwa [take_of_length_le (by rw [logWrites_length])] at h

/-- The first header write, the one with `n > 0`, is among the writes `ws`. -/
def HeadWritten (start : Nat) (ws : Writes Nat Block) : Prop :=
  ∃ w ∈ ws, w.1 = start ∧ 0 < headN w.2

/-- What a crash of `commit` after `k` writes leaves. -/
theorem crashAt_commit {m : Mem} (ht : Transaction start size m.lh t) (hne : t ≠ [])
    (hlt : ∀ b ∈ m.lh.blocks, b < 2 ^ 32) (hpin : ∀ w ∈ t, Pinned m w.1 w.2)
    (hhead : headN (d start) = 0) (k : Nat) :
    (¬ HeadWritten start (((commit start m).writes d).take k) ∧
      Clean start size d ((commit start m).crashAt d k)) ∨
    (HeadWritten start (((commit start m).writes d).take k) ∧
      (Logged start size m.lh t d ((commit start m).crashAt d k) ∨
        Clean start size (applyWrites t d) ((commit start m).crashAt d k))) := by
  have hs : 1 ≤ size := by have := ht.room; omega
  obtain ⟨hb, hb', hw⟩ := commit_writes start d hne ht.blocks hpin ht.clear
  have hlen : (logWrites start 0 t).length = t.length := logWrites_length 0
  rw [DiskProg.crashAt, hw]
  by_cases hk : k ≤ t.length
  · -- the header write has not happened: only log blocks have changed
    left
    rw [take_append_of_le_length (by omega)]
    refine ⟨?_, ?_, fun b hout => ?_⟩
    · rintro ⟨w, hwm, he, -⟩
      have := mem_logWrites start (mem_of_mem_take hwm)
      omega
    · rw [applyWrites_logWrites_take ht.room k (Or.inr rfl)]; exact hhead
    · exact applyWrites_logWrites_take ht.room k (Or.inl hout)
  · right
    obtain ⟨j, rfl⟩ : ∃ j, k = t.length + (j + 1) := ⟨k - t.length - 1, by omega⟩
    rw [take_append, take_of_length_le (by omega), hlen, Nat.add_sub_cancel_left,
      take_succ_cons]
    have hlogged := logged_of_head (d := d) ht hlt hb
    refine ⟨⟨(start, m.lh.store hb), by simp, rfl, ?_⟩, ?_⟩
    · rw [headN_store, n, ht.blocks, length_map]
      exact_mod_cast length_pos_iff.mpr hne
    rw [applyWrites_append, applyWrites_cons]
    by_cases hj : j ≤ t.length
    · left
      rw [take_append_of_le_length hj]
      exact hlogged.install_take ht j
    · right
      rw [take_of_length_le (by simp; omega), applyWrites_append]
      exact clean_of_erase hs hb' fun b hout => hlogged.install_all hout

/-- The cached contents of the header's blocks, as a list of writes. -/
def cachedWrites (lh : LogHeader) (content : Nat → Block) : Writes Nat Block :=
  lh.blocks.map fun b => (b, content b)

@[simp] theorem cachedWrites_fst (lh : LogHeader) (content : Nat → Block) :
    (cachedWrites lh content).map fst = lh.blocks := by
  simp [cachedWrites, Function.comp_def]

theorem applyWrites_cachedWrites (content : Nat → Block) (hnd : lh.blocks.Nodup) (b : Nat) :
    applyWrites (cachedWrites lh content) d b = if b ∈ lh.blocks then content b else d b := by
  split_ifs with hb
  · exact applyWrites_of_mem (by simpa using hnd) (mem_map.mpr ⟨b, hb, rfl⟩)
  · exact applyWrites_of_notMem (by simpa using hb)

end Crash

/-- **Crash atomicity.**  On a disk whose header is empty, let `commit` run for
a header that lists distinct blocks outside the log area, all cached and
pinned, with room for them in the log.  Stop the machine after any `k` of its
writes and run recovery, itself stopped and restarted as often as one likes,
to its end.  Then the header on disk is empty, and outside the log area every
listed block holds its cached contents if the first header write reached the
disk, and everything is as before if it did not. -/
theorem commit_crash_atomic (start size : Nat) (d : Disk) (m : Mem) (content : Nat → Block)
    (hhead : headN (d start) = 0)
    (hroom : m.lh.n + 1 ≤ size) (hnd : m.lh.blocks.Nodup)
    (hint : ∀ b ∈ m.lh.blocks, b < 2 ^ 32)
    (hout : ∀ b ∈ m.lh.blocks, Outside start size b)
    (hpin : ∀ b ∈ m.lh.blocks, Pinned m b (content b))
    (k : Nat) (d' : Disk)
    (hrec : DiskProg.Recovers (recoveries start) ((commit start m).crashAt d k) d') :
    headN (d' start) = 0 ∧
    (HeadWritten start (((commit start m).writes d).take k) →
      ∀ b, Outside start size b → d' b = if b ∈ m.lh.blocks then content b else d b) ∧
    (¬ HeadWritten start (((commit start m).writes d).take k) →
      ∀ b, Outside start size b → d' b = d b) := by
  have hs : 1 ≤ size := by omega
  by_cases hnil : m.lh.blocks = []
  · -- an empty transaction issues no write at all
    have hw := commit_writes_nil start d hnil
    rw [DiskProg.crashAt, hw, take_nil] at hrec
    have hc := recovers_clean (d := d) hs ⟨hhead, fun _ _ => rfl⟩ hrec
    refine ⟨hc.head, fun _ b hb => ?_, fun _ => hc.home⟩
    rw [hc.home b hb, hnil]
    simp
  · have ht : Transaction start size m.lh (cachedWrites m.lh content) :=
      ⟨by simp, by simpa using hnd, by rw [cachedWrites, length_map]; exact hroom,
        by simpa [cachedWrites] using hout⟩
    have hne : cachedWrites m.lh content ≠ [] := by simpa [cachedWrites] using hnil
    have hp : ∀ w ∈ cachedWrites m.lh content, Pinned m w.1 w.2 := by
      simpa [cachedWrites] using hpin
    rcases crashAt_commit ht hne hint hp hhead k with ⟨hn, hc⟩ | ⟨hy, hl⟩
    · have hfin := recovers_clean hs hc hrec
      exact ⟨hfin.head, fun h => absurd h hn, fun _ => hfin.home⟩
    · have hfin := recovers_logged ht hl hrec
      refine ⟨hfin.head, fun _ b hb => ?_, fun h => absurd hy h⟩
      rw [hfin.home b hb, applyWrites_cachedWrites content hnd b]

/-- Memory with two blocks, 40 and 41, logged and pinned. -/
def twoBlocks : Mem where
  lh := ⟨[40, 41], by decide⟩
  buf := fun b => if b = 40 ∨ b = 41 then some (Bytes.ofFn fun _ => 7) else none
  refcnt := fun _ => 1
  recycle := fun _ => true
  releases := 0

/-- The hypotheses can be met: two blocks, a crash after the header write and
one home block, one complete recovery. -/
theorem commit_crash_atomic_two_blocks :
    headN ((recoverFromLog 2 (Mem.boot fun _ => true)).final
      ((commit 2 twoBlocks).crashAt (fun _ => Bytes.zero) 4) 2) = 0 := by
  have hmem : ∀ b ∈ twoBlocks.lh.blocks, b = 40 ∨ b = 41 := by simp [twoBlocks]
  have hr : recoverFromLog 2 (Mem.boot fun _ => true) ∈ recoveries 2 := ⟨fun _ => true, rfl⟩
  have hout : ∀ b ∈ twoBlocks.lh.blocks, Outside 2 30 b := fun b hb =>
    Or.inr (by have := hmem b hb; omega)
  have hpin : ∀ b ∈ twoBlocks.lh.blocks, Pinned twoBlocks b (Bytes.ofFn fun _ => 7) :=
    fun b hb => ⟨if_pos (hmem b hb), le_refl 1⟩
  exact (commit_crash_atomic 2 30 (fun _ => Bytes.zero) twoBlocks (fun _ => Bytes.ofFn fun _ => 7)
    (by decide) (by decide) (by decide) (by decide) hout hpin 4 _
    (DiskProg.Recovers.complete hr _)).1

end Xv6.LogDisk
