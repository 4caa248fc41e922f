/-
Xv6/FileWrite.lean

`filewrite` on an inode, by any number of processes that share one `struct file`.

One call is cut into pieces, each written with the inode locked: `ilock`, `writei` at
`f->off` and the addition to `f->off`, and `iunlock` are three steps of a process, and
processes interleave between them.  `f->off` is read and changed only with the inode
locked.  What others do to the disk meanwhile is a label of its own; the statements
below say that it leaves this inode alone.  The file is writable and refers to an inode
that is in memory; `begin_op` and `end_op` are not modelled here.

`log` is the list of the pieces that were written, with their places in the file, each
under the number of the call that it belongs to.
-/
import Xv6.FileContent
import Xv6.Lib.Machine

namespace Xv6.FileWrite

open Function List Machine
open Fs

/-! ### State -/

/-- The arguments of a call: what `copyin` finds at `addr + k`, and `n`. -/
structure Call where
  src : Nat → Option UInt8
  n : Int

/-- Where a process is. -/
inductive Pc where
  | out
  /-- At `while(i < n)`. -/
  | loop (c : Call) (i : Nat)
  /-- Has locked the inode. -/
  | locked (c : Call) (i : Nat)
  /-- At `iunlock`, with the result `r` of `writei`. -/
  | unlock (c : Call) (i n1 : Nat) (r : Int)

/-- A piece that was written. -/
structure Piece (P : Type) where
  who : P
  call : Nat
  off : Nat
  data : List UInt8

/-- A call that has returned. -/
structure Result (P : Type) extends Call where
  who : P
  call : Nat
  ret : Int

/-- The disk, the inode in memory, the file and the processes. -/
structure Sys (P : Type) where
  disk : Disk
  ip : Inode
  /-- `f->off`. -/
  off : UInt32
  lock : Option P
  pc : P → Pc
  log : List (Piece P)
  /-- The number of calls by a process. -/
  calls : P → Nat
  results : List (Result P)

/-- The process has locked the inode. -/
def Pc.holds : Pc → Bool
  | .locked _ _ | .unlock _ _ _ _ => true
  | _ => false

variable {P : Type} [DecidableEq P]

namespace Sys

variable (s : Sys P) (p : P)

@[simps] def goto (pc : Pc) : Sys P := { s with pc := update s.pc p pc }

@[simps] def setLock (o : Option P) : Sys P := { s with lock := o }

/-- A new call. -/
@[simps] def start (c : Call) : Sys P :=
  { s with pc := update s.pc p (.loop c 0), calls := update s.calls p (s.calls p + 1) }

/-- The end of a call: `ret = (i == n ? n : -1)`. -/
@[simps] def finish (c : Call) (i : Nat) : Sys P :=
  { s with
    pc := update s.pc p .out
    results := { c with who := p, call := s.calls p, ret := if (i : Int) = c.n then c.n else -1 } :: s.results }

end Sys

/-! ### The code -/

/-- The most that is written at a time. -/
def max : Nat := (MAXOPBLOCKS - 1 - 1 - 2) / 2 * BSIZE

/-- The length of the next piece. -/
def n1 (c : Call) (i : Nat) : Nat := min (c.n - i).toNat max

/-- `writei` for the next piece of a call, at `f->off`. -/
def writePiece (sb : SuperBlock) (s : Sys P) (c : Call) (i : Nat) : Except String (Int × Disk × Inode) :=
  writei sb s.disk s.ip (fun k => c.src (i + k)) s.off (UInt32.ofNat (n1 c i))

/-- The state after `writei`, with the addition to `f->off`. -/
@[simps] def Sys.wrote (s : Sys P) (p : P) (c : Call) (i : Nat) (r : Int) (d : Disk) (ip : Inode) : Sys P :=
  { s with
    disk := d
    ip := ip
    off := if 0 < r then s.off + UInt32.ofNat r.toNat else s.off
    pc := update s.pc p (.unlock c i (n1 c i) r)
    log := if 0 < r then
        s.log ++ [⟨p, s.calls p, s.off.toNat, (copyin (fun k => c.src (i + k)) 0 (n1 c i)).take r.toNat⟩]
      else s.log }

/-- The next step of a process. -/
def advance (sb : SuperBlock) (s : Sys P) (p : P) : Outcome (Sys P) :=
  match s.pc p with
  | .out => .blocked
  | .loop c i =>
    if (i : Int) < c.n then
      if s.lock = none then .ok ((s.setLock (some p)).goto p (.locked c i)) else .blocked
    else .ok (s.finish p c i)
  | .locked c i =>
    match writePiece sb s c i with
    | .error msg => .panic msg
    | .ok (r, d, ip) => .ok (s.wrote p c i r d ip)
  | .unlock c i n1 r =>
    if r ≠ n1 then .ok ((s.setLock none).finish p c i)
    else .ok ((s.setLock none).goto p (.loop c (i + r.toNat)))

/-- What can happen next. -/
inductive Act (P : Type) where
  | filewrite (p : P) (c : Call)
  | step (p : P)
  /-- Others change the disk. -/
  | other (d : Disk)

/-- The machine. -/
def step (sb : SuperBlock) : Machine (Sys P) (Act P)
  | s, .filewrite p c =>
    match s.pc p with
    | .out => .ok (s.start p c)
    | _ => .blocked
  | s, .step p => advance sb s p
  | s, .other d => .ok { s with disk := d }

/-- An open file that nobody is writing to. -/
def opened (d : Disk) (ip : Inode) (off : UInt32) : Sys P where
  disk := d
  ip := ip
  off := off
  lock := none
  pc := fun _ => .out
  log := []
  calls := fun _ => 0
  results := []

/-! ### The assumptions -/

/-- User buffers are mapped, there is space for what is written, and others leave the file system
well formed and the file as it is. -/
def Room (sb : SuperBlock) : Sys P → Act P → Prop
  | _, .filewrite _ c => 0 ≤ c.n ∧ ∀ k : Nat, (k : Int) < c.n → (c.src k).isSome = true
  | s, .step p =>
    match s.pc p with
    | .locked c i => s.off.toNat + n1 c i ≤ MAXFILE * BSIZE ∧ writePiece sb s c i ≠ .error "balloc: out of blocks"
    | _ => True
  | s, .other d => Wf sb d ∧ Open sb (dinode sb d) s.ip ∧ content d s.ip.di = content s.disk s.ip.di

/-! ### The file -/

/-- All bytes that were written, in order. -/
def bytes (log : List (Piece P)) : List UInt8 := log.flatMap Piece.data

omit [DecidableEq P] in
theorem bytes_append (log : List (Piece P)) (x : Piece P) : bytes (log ++ [x]) = bytes log ++ x.data := by
  rw [bytes, flatMap_append, flatMap_singleton, bytes]

/-- The pieces are in the file one after the other, from `o` on. -/
def Consecutive : Nat → List (Piece P) → Prop
  | _, [] => True
  | o, x :: log => x.off = o ∧ Consecutive (o + x.data.length) log

variable {o m i k : Nat} {log : List (Piece P)} {x : Piece P}

omit [DecidableEq P] in
theorem Consecutive.append (h : Consecutive o log)
    (hx : x.off = o + (bytes log).length) : Consecutive o (log ++ [x]) := by
  induction log generalizing o with
  | nil => exact ⟨hx, trivial⟩
  | cons y log ih =>
    refine ⟨h.1, ih h.2 ?_⟩
    rw [hx, add_assoc, ← length_append]
    rfl

omit [DecidableEq P] in
/-- Pieces that follow one another do not overlap. -/
theorem Consecutive.apart (h : Consecutive o log) :
    (∀ x ∈ log, o ≤ x.off) ∧ log.Pairwise fun x y => x.off + x.data.length ≤ y.off := by
  induction log generalizing o with
  | nil => exact ⟨nofun, .nil⟩
  | cons y log ih =>
    obtain ⟨hge, hpair⟩ := ih h.2
    refine ⟨fun x hx => ?_, .cons (fun x hx => ?_) hpair⟩
    · rcases mem_cons.mp hx with rfl | hx
      · exact h.1.ge
      · exact (Nat.le_add_right _ _).trans (hge x hx)
    · rw [h.1]
      exact hge x hx

variable {src : Nat → Option UInt8}

/-- What `copyin` finds in a buffer that is mapped. -/
theorem copyin_mapped (h : ∀ k, k < m → (src k).isSome = true) :
    (copyin src 0 m).length = m ∧ (copyin src 0 m).map some = (range m).map src := by
  let data := (range m).map fun k => (src k).getD 0
  have hlen : data.length = m := by rw [length_map, length_range]
  have hsome : ∀ k, k < m → some ((src k).getD 0) = src k := by
    intro k hk
    obtain ⟨a, ha⟩ := Option.isSome_iff_exists.mp (h k hk)
    rw [ha]
    rfl
  have heq : copyin src 0 m = data := by
    rw [← hlen]
    refine copyin_eq fun k hk => ?_
    rw [hlen] at hk
    rw [zero_add, getElem?_map, getElem?_range hk]
    exact (hsome k hk).symm
  rw [heq]
  refine ⟨hlen, ?_⟩
  rw [map_map]
  exact map_congr_left fun k hk => hsome k (mem_range.mp hk)

theorem n1_le (c : Call) (i : Nat) : n1 c i ≤ 3 * BSIZE := min_le_right _ _

/-- The file, and the pieces in it. -/
structure FileInv (sb : SuperBlock) (d₀ : Disk) (ip₀ : Inode) (off₀ : UInt32) (s : Sys P) : Prop where
  wf : Wf sb s.disk
  cur : Open sb (dinode sb s.disk) s.ip
  inum : s.ip.inum = ip₀.inum
  off : s.off.toNat = off₀.toNat + (bytes s.log).length
  size : s.off.toNat ≤ s.ip.di.size.toNat
  content : Fs.content s.disk s.ip.di = splice (Fs.content d₀ ip₀.di) off₀.toNat (bytes s.log)
  small : ∀ x ∈ s.log, x.data.length ≤ 3 * BSIZE
  place : Consecutive off₀.toNat s.log

/-- **A piece is written** behind all others. -/
theorem FileInv.write {sb : SuperBlock} {d₀ : Disk} {ip₀ : Inode} {off₀ : UInt32} {s : Sys P}
    (h : FileInv sb d₀ ip₀ off₀ s) (h₀ : off₀.toNat ≤ ip₀.di.size.toNat) (p : P) {c : Call}
    (hi : (i : Int) < c.n) (hmapped : ∀ k : Nat, (k : Int) < c.n → (c.src k).isSome = true)
    (hfit : s.off.toNat + n1 c i ≤ MAXFILE * BSIZE) (hroom : writePiece sb s c i ≠ .error "balloc: out of blocks") :
    ∃ d ip, writePiece sb s c i = .ok (n1 c i, d, ip) ∧ 0 < n1 c i ∧
      (copyin (fun k => c.src (i + k)) 0 (n1 c i)).length = n1 c i ∧
      FileInv sb d₀ ip₀ off₀ (s.wrote p c i (n1 c i) d ip) := by
  have hlim : MAXFILE * BSIZE < 2 ^ 32 := by decide
  have hpos : 0 < n1 c i := lt_min (by omega) (by decide)
  have hle : i + n1 c i ≤ c.n.toNat := by
    have : n1 c i ≤ (c.n - i).toNat := min_le_left _ _
    omega
  have hsrc : ∀ k, k < n1 c i → (c.src (i + k)).isSome = true := fun k hk => hmapped (i + k) (by omega)
  obtain ⟨hlen, hmap⟩ := copyin_mapped hsrc
  have hn : (UInt32.ofNat (n1 c i)).toNat = n1 c i := UInt32.toNat_ofNat_of_lt' (show n1 c i < 2 ^ 32 by omega)
  have hr : WriteRange s.ip s.off (UInt32.ofNat (n1 c i)) := by
    refine ⟨h.size, ?_, ?_⟩
    · omega
    · rw [hn]
      exact hfit
  have hget : ∀ k, k < (copyin (fun k => c.src (i + k)) 0 (n1 c i)).length →
      c.src (i + k) = (copyin (fun k => c.src (i + k)) 0 (n1 c i))[k]? := by
    intro k hk
    have hk' := congrArg (fun l => l[k]?) hmap
    simp only [getElem?_map, getElem?_range (hlen ▸ hk)] at hk'
    obtain ⟨a, ha, heq⟩ := Option.map_eq_some_iff.mp hk'
    rw [ha]
    exact heq.symm
  obtain ⟨⟨r, d, ip⟩, hres, hret, hwrote, hcont⟩ :=
    (writei_list h.wf h.cur hr (hn.trans hlen.symm) hget).exists_ok (by rintro msg rfl; exact hroom)
  rw [hn] at hret hwrote
  refine ⟨d, ip, by rw [writePiece, hres]; exact congrArg (fun r => Except.ok (r, d, ip)) hret, hpos, hlen, ?_⟩
  have hr0 : (0 : Int) < (n1 c i : Int) := by omega
  have hlog : (s.wrote p c i (n1 c i) d ip).log =
      s.log ++ [⟨p, s.calls p, s.off.toNat, copyin (fun k => c.src (i + k)) 0 (n1 c i)⟩] := by
    rw [Sys.wrote_log, if_pos hr0, take_of_length_le (by omega)]
  have hoff : (s.wrote p c i (n1 c i) d ip).off.toNat = s.off.toNat + n1 c i := by
    rw [Sys.wrote_off, if_pos hr0, Int.toNat_natCast, toNat_add_of_range hr, hn]
  refine ⟨hwrote.wf, hwrote.cur, hwrote.inum.trans h.inum, ?_, ?_, ?_, ?_, ?_⟩
  · rw [hoff, hlog, bytes_append, length_append, hlen, h.off, add_assoc]
  · rw [hoff, show (s.wrote p c i (n1 c i) d ip).ip.di.size.toNat = _ from hwrote.size]
    exact le_max_right _ _
  · rw [hlog, bytes_append, ← splice_splice (by rw [content_length]; exact h₀), ← h.content, ← h.off]
    exact hcont
  · rw [hlog]
    intro x hx
    rcases mem_append.mp hx with hx | hx
    · exact h.small x hx
    · rw [mem_singleton.mp hx]
      exact hlen.le.trans (n1_le c i)
  · rw [hlog]
    exact h.place.append h.off

/-! ### The calls -/

/-- The bytes of the pieces of one call. -/
def bytesOf (log : List (Piece P)) (p : P) (k : Nat) : List UInt8 :=
  bytes (log.filter fun x => x.who = p ∧ x.call = k)

/-- One call has written the first `i` bytes of its buffer, in order. -/
def Sent (log : List (Piece P)) (p : P) (k : Nat) (src : Nat → Option UInt8) (i : Nat) : Prop :=
  (bytesOf log p k).map some = (range i).map src

theorem bytesOf_append (log : List (Piece P)) (x : Piece P) (q : P) (k : Nat) :
    bytesOf (log ++ [x]) q k = bytesOf log q k ++ if x.who = q ∧ x.call = k then x.data else [] := by
  rw [bytesOf, bytesOf, bytes, bytes]
  split
  · rename_i hx
    simp [hx]
  · rename_i hx
    simp [hx]

theorem Sent.put {p : P} {off : Nat} {data : List UInt8}
    (h : Sent log p k src i) (hdata : data.map some = (range m).map fun j => src (i + j)) :
    Sent (log ++ [⟨p, k, off, data⟩]) p k src (i + m) := by
  rw [Sent, bytesOf_append, if_pos ⟨rfl, rfl⟩, map_append, h, hdata, range_add, map_append, map_map]
  rfl

theorem Sent.other {q : P}
    (h : Sent log q k src i) (hne : ¬ (x.who = q ∧ x.call = k)) : Sent (log ++ [x]) q k src i := by
  rw [Sent, bytesOf_append, if_neg hne, append_nil]
  exact h

/-- The call that a process is in, and how much of it is written. -/
def Pc.done : Pc → Option (Call × Nat)
  | .out => none
  | .loop c i | .locked c i => some (c, i)
  | .unlock c i m _ => some (c, i + m)

/-- How much of a call is written. -/
def Pc.progress (pc : Pc) : Nat := (pc.done.map Prod.snd).getD 0

/-- The calls, those that run and those that have returned. -/
structure Calls [Fintype P] (s : Sys P) : Prop where
  lock : Mutex Pc.holds s.pc s.lock
  num : ∀ x ∈ s.log, x.call ≤ s.calls x.who
  running : ∀ p c i, (s.pc p).done = some (c, i) → (i : Int) ≤ c.n ∧
    (∀ k : Nat, (k : Int) < c.n → (c.src k).isSome = true) ∧ Sent s.log p (s.calls p) c.src i
  goes : ∀ p c i, s.pc p = .locked c i → (i : Int) < c.n
  whole : ∀ p c i m r, s.pc p = .unlock c i m r → r = m
  past : ∀ x ∈ s.results, x.call ≤ s.calls x.who ∧ ((s.pc x.who).done ≠ none → x.call < s.calls x.who)
  done : ∀ x ∈ s.results, x.ret = x.n ∧ 0 ≤ x.n ∧ Sent s.log x.who x.call x.src x.n.toNat
  total : (bytes s.log).length = (s.results.map fun x => x.n.toNat).sum + ∑ p, (s.pc p).progress

namespace Calls

variable [Fintype P] {s s' : Sys P} {p : P} {i : Nat} {c : Call}

/-- A process moves on in its call. -/
theorem move (h : Calls s) {pc : Pc} (hpc : s'.pc = update s.pc p pc) (hlock : Mutex Pc.holds s'.pc s'.lock)
    (hdone : pc.done = (s.pc p).done) (hgoes : ∀ c i, pc = .locked c i → (i : Int) < c.n)
    (hwhole : ∀ c i m r, pc ≠ .unlock c i m r) (hlog : s'.log = s.log) (hcalls : s'.calls = s.calls)
    (hres : s'.results = s.results) : Calls s' := by
  have hsame : ∀ q, (s'.pc q).done = (s.pc q).done := by
    intro q
    rw [hpc]
    by_cases hqp : q = p
    · rw [hqp, update_self, hdone]
    · rw [update_of_ne hqp]
  refine ⟨hlock, ?_, fun q c i hq => ?_, fun q c i hq => ?_, fun q c i m r hq => ?_, ?_, ?_, ?_⟩
  · rw [hlog, hcalls]
    exact h.num
  · rw [hlog, hcalls]
    exact h.running q c i (hsame q ▸ hq)
  · rw [hpc] at hq
    by_cases hqp : q = p
    · rw [hqp, update_self] at hq
      exact hgoes c i hq
    · rw [update_of_ne hqp] at hq
      exact h.goes q c i hq
  · rw [hpc] at hq
    by_cases hqp : q = p
    · rw [hqp, update_self] at hq
      exact absurd hq (hwhole c i m r)
    · rw [update_of_ne hqp] at hq
      exact h.whole q c i m r hq
  · rw [hres, hcalls]
    exact fun x hx => ⟨(h.past x hx).1, fun hq => (h.past x hx).2 (hsame _ ▸ hq)⟩
  · rw [hres, hlog]
    exact h.done
  · rw [hlog, hres, h.total]
    refine congrArg _ (Finset.sum_congr rfl fun q _ => ?_)
    rw [Pc.progress, Pc.progress, hsame q]

/-- A new call has written nothing yet. -/
theorem start (h : Calls s) (hpc : s.pc p = .out) (hn : 0 ≤ c.n)
    (hmapped : ∀ k : Nat, (k : Int) < c.n → (c.src k).isSome = true) : Calls (s.start p c) := by
  have hle : ∀ q, s.calls q ≤ update s.calls p (s.calls p + 1) q := by
    intro q
    by_cases hq : q = p
    · rw [hq, update_self]
      exact Nat.le_succ _
    · rw [update_of_ne hq]
  refine ⟨h.lock.keep (by rw [hpc]; rfl), fun x hx => (h.num x hx).trans (hle x.who), fun q c' i hq => ?_,
    fun q c' i hq => ?_, fun q c' i m r hq => ?_, fun x hx => ?_, h.done, ?_⟩
  · simp only [Sys.start_pc, Sys.start_calls] at hq ⊢
    rcases eq_or_ne q p with rfl | hqp
    · rw [update_self] at hq ⊢
      cases hq
      refine ⟨hn, hmapped, ?_⟩
      -- no piece has the new number
      have hnil : (s.log.filter fun x => x.who = q ∧ x.call = s.calls q + 1) = [] := by
        rw [filter_eq_nil_iff]
        intro x hx hcall
        obtain ⟨rfl, hc⟩ := of_decide_eq_true hcall
        have := h.num x hx
        omega
      rw [Sent, bytesOf, Sys.start_log, hnil]
      rfl
    · rw [update_of_ne hqp] at hq ⊢
      exact h.running q c' i hq
  · rw [Sys.start_pc] at hq
    by_cases hqp : q = p
    · rw [hqp, update_self] at hq
      cases hq
    · rw [update_of_ne hqp] at hq
      exact h.goes q c' i hq
  · rw [Sys.start_pc] at hq
    by_cases hqp : q = p
    · rw [hqp, update_self] at hq
      cases hq
    · rw [update_of_ne hqp] at hq
      exact h.whole q c' i m r hq
  · obtain ⟨hcall, hlt⟩ := h.past x hx
    refine ⟨hcall.trans (hle x.who), fun hq => ?_⟩
    simp only [Sys.start_pc, Sys.start_calls] at hq ⊢
    by_cases hqp : x.who = p
    · rw [hqp, update_self]
      rw [hqp] at hcall
      omega
    · rw [update_of_ne hqp] at hq ⊢
      exact hlt hq
  · have htrade := sum_update_trade Pc.progress s.pc p (.loop c 0)
    rw [hpc] at htrade
    show (bytes s.log).length = _ + ∑ q, (update s.pc p (.loop c 0) q).progress
    rw [h.total]
    exact congrArg _ htrade.symm

/-- A piece of a call is written. -/
theorem write (h : Calls s) (hpc : s.pc p = .locked c i) (hpos : 0 < n1 c i)
    (hlen : (copyin (fun k => c.src (i + k)) 0 (n1 c i)).length = n1 c i) (d : Disk) (ip : Inode) :
    Calls (s.wrote p c i (n1 c i) d ip) := by
  have hdone : (s.pc p).done = some (c, i) := by rw [hpc]; rfl
  obtain ⟨hi, hmapped, hsent⟩ := h.running p c i hdone
  have hle : (i : Int) + n1 c i ≤ c.n := by
    have : n1 c i ≤ (c.n - i).toNat := min_le_left _ _
    omega
  obtain ⟨-, hmap⟩ := copyin_mapped fun k (hk : k < n1 c i) => hmapped (i + k) (by push_cast; omega)
  have hr0 : (0 : Int) < (n1 c i : Int) := by omega
  have hlog : (s.wrote p c i (n1 c i) d ip).log =
      s.log ++ [⟨p, s.calls p, s.off.toNat, copyin (fun k => c.src (i + k)) 0 (n1 c i)⟩] := by
    rw [Sys.wrote_log, if_pos hr0, take_of_length_le (by omega)]
  refine ⟨h.lock.keep (by rw [hpc]; rfl), ?_, fun q c' i' hq => ?_, fun q c' i' hq => ?_, fun q c' i' m r hq => ?_,
    fun x hx => ?_, fun x hx => ?_, ?_⟩
  · rw [hlog]
    intro x hx
    rcases mem_append.mp hx with hx | hx
    · exact h.num x hx
    · rw [mem_singleton.mp hx]
      exact le_rfl
  · rw [hlog]
    rw [Sys.wrote_pc] at hq
    rcases eq_or_ne q p with rfl | hqp
    · rw [update_self] at hq
      cases hq
      exact ⟨by push_cast; exact hle, hmapped, hsent.put hmap⟩
    · rw [update_of_ne hqp] at hq
      obtain ⟨hi', hm', hs'⟩ := h.running q c' i' hq
      exact ⟨hi', hm', hs'.other fun heq => hqp heq.1.symm⟩
  · rw [Sys.wrote_pc] at hq
    by_cases hqp : q = p
    · rw [hqp, update_self] at hq
      cases hq
    · rw [update_of_ne hqp] at hq
      exact h.goes q c' i' hq
  · rw [Sys.wrote_pc] at hq
    by_cases hqp : q = p
    · rw [hqp, update_self] at hq
      cases hq
      rfl
    · rw [update_of_ne hqp] at hq
      exact h.whole q c' i' m r hq
  · obtain ⟨hcall, hlt⟩ := h.past x hx
    refine ⟨hcall, fun hq => hlt ?_⟩
    rw [Sys.wrote_pc] at hq
    by_cases hqp : x.who = p
    · rw [hqp, hdone]
      exact nofun
    · rwa [update_of_ne hqp] at hq
  · -- the call that the piece belongs to has not returned
    obtain ⟨hret, hn, hs⟩ := h.done x hx
    refine ⟨hret, hn, ?_⟩
    rw [hlog]
    refine hs.other ?_
    rintro ⟨hwho, hcall⟩
    have hlt := (h.past x hx).2 (by rw [← hwho, hdone]; exact nofun)
    rw [← hwho] at hlt
    exact absurd hcall hlt.ne'
  · have htrade := sum_update_trade Pc.progress s.pc p (.unlock c i (n1 c i) (n1 c i))
    rw [hpc, show (Pc.locked c i).progress = i from rfl,
      show (Pc.unlock c i (n1 c i) (n1 c i)).progress = i + n1 c i from rfl] at htrade
    rw [hlog, bytes_append, length_append, h.total, hlen]
    show _ = (s.results.map fun x => x.n.toNat).sum + ∑ q, (update s.pc p (.unlock c i (n1 c i) (n1 c i)) q).progress
    omega

/-- A call returns. -/
theorem finish (h : Calls s) (hpc : s.pc p = .loop c i) (hi : ¬ (i : Int) < c.n) : Calls (s.finish p c i) := by
  have hdone : (s.pc p).done = some (c, i) := by rw [hpc]; rfl
  obtain ⟨hle, -, hsent⟩ := h.running p c i hdone
  have hin : (i : Int) = c.n := by omega
  have hother : ∀ q, ((s.finish p c i).pc q).done ≠ none → q ≠ p ∧ (s.pc q).done ≠ none := by
    intro q hq
    rw [Sys.finish_pc] at hq
    by_cases hqp : q = p
    · rw [hqp, update_self] at hq
      exact absurd rfl hq
    · rw [update_of_ne hqp] at hq
      exact ⟨hqp, hq⟩
  have hsame : ∀ q, q ≠ p → (s.finish p c i).pc q = s.pc q := fun q hqp => update_of_ne hqp _ _
  refine ⟨h.lock.keep (by rw [hpc]; rfl), h.num, fun q c' i' hq => ?_, fun q c' i' hq => ?_, fun q c' i' m r hq => ?_,
    fun x hx => ?_, fun x hx => ?_, ?_⟩
  · have hqp := (hother q (by rw [hq]; exact nofun)).1
    rw [hsame q hqp] at hq
    exact h.running q c' i' hq
  · have hqp := (hother q (by rw [hq]; exact nofun)).1
    rw [hsame q hqp] at hq
    exact h.goes q c' i' hq
  · have hqp := (hother q (by rw [hq]; exact nofun)).1
    rw [hsame q hqp] at hq
    exact h.whole q c' i' m r hq
  · rcases mem_cons.mp hx with rfl | hx
    · exact ⟨le_rfl, fun hq => absurd rfl (hother _ hq).1⟩
    · exact ⟨(h.past x hx).1, fun hq => (h.past x hx).2 (hother _ hq).2⟩
  · rcases mem_cons.mp hx with rfl | hx
    · refine ⟨if_pos hin, hin ▸ Int.natCast_nonneg i, ?_⟩
      rw [show c.n.toNat = i by omega]
      exact hsent
    · exact h.done x hx
  · have htrade := sum_update_trade Pc.progress s.pc p .out
    rw [hpc, show (Pc.loop c i).progress = i from rfl, show Pc.out.progress = 0 from rfl] at htrade
    show (bytes s.log).length = (c.n.toNat + (s.results.map fun x => x.n.toNat).sum) +
      ∑ q, (update s.pc p .out q).progress
    rw [h.total]
    omega

end Calls

/-! ### Every run -/

/-- All of it. -/
def Inv [Fintype P] (sb : SuperBlock) (d₀ : Disk) (ip₀ : Inode) (off₀ : UInt32) (s : Sys P) : Prop :=
  FileInv sb d₀ ip₀ off₀ s ∧ Calls s

section Run

variable [Fintype P] {sb : SuperBlock} {d₀ : Disk} {ip₀ : Inode} {off₀ : UInt32} {s : Sys P}

theorem Inv.advance (h₀ : off₀.toNat ≤ ip₀.di.size.toNat) (h : Inv sb d₀ ip₀ off₀ s) (p : P)
    (hroom : Room sb s (.step p)) :
    (∃ s', FileWrite.advance sb s p = .ok s' ∧ Inv sb d₀ ip₀ off₀ s') ∨ FileWrite.advance sb s p = .blocked := by
  obtain ⟨hf, hc⟩ := h
  rw [Room] at hroom
  rw [FileWrite.advance]
  rcases hpc : s.pc p with - | ⟨c, i⟩ | ⟨c, i⟩ | ⟨c, i, m, r⟩ <;> rw [hpc] at hroom
  · exact .inr rfl
  · by_cases hi : (i : Int) < c.n
    · by_cases hl : s.lock = none
      · refine .inl ⟨_, (if_pos hi).trans (if_pos hl), ⟨hf.wf, hf.cur, hf.inum, hf.off, hf.size, hf.content, hf.small, hf.place⟩, ?_⟩
        refine hc.move rfl (hc.lock.acquire hl rfl) (by rw [hpc]; rfl) ?_ nofun rfl rfl rfl
        rintro c' i' ⟨⟩
        exact hi
      · exact .inr ((if_pos hi).trans (if_neg hl))
    · refine .inl ⟨_, if_neg hi, ?_, hc.finish hpc hi⟩
      exact ⟨hf.wf, hf.cur, hf.inum, hf.off, hf.size, hf.content, hf.small, hf.place⟩
  · left
    obtain ⟨-, hmapped, -⟩ := hc.running p c i (by rw [hpc]; rfl)
    obtain ⟨d, ip, hres, hpos, hlen, hf'⟩ := hf.write h₀ p (hc.goes p c i hpc) hmapped hroom.1 hroom.2
    exact ⟨_, by simp only [hres], hf', hc.write hpc hpos hlen d ip⟩
  · left
    obtain rfl := hc.whole p c i m r hpc
    refine ⟨_, if_neg (not_not.mpr rfl), ⟨hf.wf, hf.cur, hf.inum, hf.off, hf.size, hf.content, hf.small, hf.place⟩, ?_⟩
    exact hc.move rfl (hc.lock.release (by rw [hpc]; rfl) rfl) (by rw [hpc]; rfl) nofun nofun rfl rfl rfl

/-- **Every step** that meets the assumptions keeps the invariant, and does not panic. -/
theorem Inv.step (h₀ : off₀.toNat ≤ ip₀.di.size.toNat) (h : Inv sb d₀ ip₀ off₀ s) (a : Act P) (hroom : Room sb s a) :
    (∃ s', FileWrite.step sb s a = .ok s' ∧ Inv sb d₀ ip₀ off₀ s') ∨ FileWrite.step sb s a = .blocked := by
  cases a with
  | filewrite p c =>
    rw [FileWrite.step]
    split
    · rename_i hpc
      obtain ⟨hf, hc⟩ := h
      refine .inl ⟨_, rfl, ?_, hc.start hpc hroom.1 hroom.2⟩
      exact ⟨hf.wf, hf.cur, hf.inum, hf.off, hf.size, hf.content, hf.small, hf.place⟩
    · exact .inr rfl
  | step p => exact h.advance h₀ p hroom
  | other d =>
    obtain ⟨hf, hc⟩ := h
    obtain ⟨hwf, hcur, hcont⟩ := hroom
    refine .inl ⟨_, rfl, ⟨hwf, hcur, hf.inum, hf.off, hf.size, hcont.trans hf.content, hf.small, hf.place⟩, ?_⟩
    exact ⟨hc.lock, hc.num, hc.running, hc.goes, hc.whole, hc.past, hc.done, hc.total⟩

theorem Inv.opened (hw : Wf sb d₀) (ho : Open sb (dinode sb d₀) ip₀) (h₀ : off₀.toNat ≤ ip₀.di.size.toNat) :
    Inv (P := P) sb d₀ ip₀ off₀ (opened d₀ ip₀ off₀) := by
  refine ⟨⟨hw, ho, rfl, rfl, h₀, (splice_nil _).symm, nofun, trivial⟩, ?_⟩
  refine ⟨fun _ => ⟨nofun, nofun⟩, nofun, nofun, nofun, nofun, nofun, nofun, ?_⟩
  show 0 = 0 + ∑ _ : P, 0
  rw [Finset.sum_const_zero, zero_add]

/-- **Writers that share a file lose nothing.**  While user buffers are mapped, there is space, and
others leave the file alone:

* no step panics;
* every call that returns, returns its `n`, and has written the bytes of its buffer in order, in
  pieces of at most `3 * BSIZE` bytes; a call that runs has written a first part of them;
* the pieces follow one another in the file from where `f->off` was, so that no place is
  written twice, and the new content is what they make of the old one;
* `f->off` has advanced by the length of all pieces, which is the sum of all `n` when no call
  runs. -/
theorem shared_writes (hw : Wf sb d₀) (ho : Open sb (dinode sb d₀) ip₀) (h₀ : off₀.toNat ≤ ip₀.di.size.toNat)
    (acts : List (Act P)) (hroom : Machine.Along (step sb) (Room sb) (opened d₀ ip₀ off₀) acts) :
    (∀ msg, outcome (step sb) (opened d₀ ip₀ off₀) acts ≠ .panic msg) ∧
    ∀ s : Sys P, outcome (step sb) (opened d₀ ip₀ off₀) acts = .ok s →
      (∀ x ∈ s.results, x.ret = x.n ∧ Sent s.log x.who x.call x.src x.n.toNat) ∧
      (∀ p c i, (s.pc p).done = some (c, i) → Sent s.log p (s.calls p) c.src i) ∧
      (∀ x ∈ s.log, x.data.length ≤ 3 * BSIZE) ∧
      Consecutive off₀.toNat s.log ∧ (s.log.Pairwise fun x y => x.off + x.data.length ≤ y.off) ∧
      content s.disk s.ip.di = splice (content d₀ ip₀.di) off₀.toNat (bytes s.log) ∧
      s.off.toNat = off₀.toNat + (bytes s.log).length ∧
      ((∀ p, s.pc p = .out) → s.off.toNat = off₀.toNat + (s.results.map fun x => x.n.toNat).sum) := by
  have hinit : Inv (P := P) sb d₀ ip₀ off₀ (opened d₀ ip₀ off₀) := Inv.opened hw ho h₀
  have hstep : ∀ (s : Sys P) a s', Inv sb d₀ ip₀ off₀ s → Room sb s a → step sb s a = .ok s' →
      Inv sb d₀ ip₀ off₀ s' := by
    intro s a s' h ha hs
    rcases h.step h₀ a ha with ⟨s'', heq, h'⟩ | hb
    · rw [hs] at heq
      cases heq
      exact h'
    · rw [hs] at hb
      cases hb
  refine ⟨fun msg => ?_, fun s hs => ?_⟩
  · refine hroom.outcome_ne_panic hstep (fun s a h ha hp => ?_) hinit
    rcases h.step h₀ a ha with ⟨s', heq, -⟩ | hb
    · rw [hp] at heq
      cases heq
    · rw [hp] at hb
      cases hb
  · obtain ⟨hf, hc⟩ := hroom.invariant hstep hs hinit
    refine ⟨fun x hx => ⟨(hc.done x hx).1, (hc.done x hx).2.2⟩, fun p c i hp => (hc.running p c i hp).2.2, hf.small,
      hf.place, hf.place.apart.2, hf.content, hf.off, fun hout => ?_⟩
    have hzero : ∑ p, (s.pc p).progress = 0 := by
      refine Finset.sum_eq_zero fun p _ => ?_
      rw [hout p]
      rfl
    rw [hf.off, hc.total, hzero, add_zero]

end Run

/-- One process writes three bytes. -/
def writeThree : List (Act Unit) :=
  .filewrite () ⟨fun k => [1, 2, 3][k]?, 3⟩ :: replicate 4 (.step ())

theorem shared_writes_three :
    Machine.Along (step tinySb) (Room tinySb) (opened tinyDisk tinyFile 0) writeThree ∧
      ∃ s, outcome (step tinySb) (opened tinyDisk tinyFile 0) writeThree = .ok s ∧
        s.results.map Result.ret = [3] ∧ s.off.toNat = 0 + (bytes s.log).length := by
  obtain ⟨d, ip, hres, -⟩ := (file_content tiny_wf tiny_open).1 _ 0 3 [1, 2, 3]
    ⟨by decide, by decide, by decide⟩ rfl (fun _ _ => rfl) tiny_writes
  let c : Call := ⟨fun k => [1, 2, 3][k]?, 3⟩
  let s₀ : Sys Unit := opened tinyDisk tinyFile 0
  let s₁ := s₀.start () c
  let s₂ := (s₁.setLock (some ())).goto () (.locked c 0)
  let s₃ := s₂.wrote () c 0 3 d ip
  let s₄ := (s₃.setLock none).goto () (.loop c 3)
  have hpiece : writePiece tinySb s₂ c 0 = .ok (3, d, ip) := by
    show writei tinySb tinyDisk tinyFile (fun k => [1, 2, 3][0 + k]?) 0 3 = _
    simpa using hres
  have h₁ : step tinySb s₀ (.filewrite () c) = .ok s₁ := rfl
  have h₂ : step tinySb s₁ (.step ()) = .ok s₂ := rfl
  have h₃ : step tinySb s₂ (.step ()) = .ok s₃ := by
    show advance tinySb s₂ () = _
    rw [advance, show s₂.pc () = .locked c 0 from rfl]
    simp only [hpiece]
    rfl
  have h₄ : step tinySb s₃ (.step ()) = .ok s₄ := rfl
  have h₅ : step tinySb s₄ (.step ()) = .ok (s₄.finish () c 3) := rfl
  have halong : Machine.Along (step tinySb) (Room tinySb) s₀ writeThree := by
    refine .cons h₁ ⟨by decide, fun k hk => ?_⟩ (.cons h₂ trivial (.cons h₃ ⟨by decide, ?_⟩ (.cons h₄ trivial
      (.cons h₅ trivial trivial))))
    · have hk' : k < 3 := Int.ofNat_lt.mp hk
      show ([1, 2, 3] : List UInt8)[k]?.isSome = true
      rw [getElem?_eq_getElem hk']
      rfl
    · rw [hpiece]
      exact nofun
  have hout : outcome (step tinySb) s₀ writeThree = .ok (s₄.finish () c 3) := by
    show outcome (step tinySb) s₁ [.step (), .step (), .step (), .step ()] = _
    rw [outcome_cons h₂, outcome_cons h₃]
    rfl
  obtain ⟨-, hs⟩ := shared_writes tiny_wf tiny_open (by decide) writeThree halong
  exact ⟨halong, _, hout, rfl, (hs _ hout).2.2.2.2.2.2.1⟩

end Xv6.FileWrite
