/-
Xv6/Console.lean

The line discipline of the console.

`consoleintr` gets one character at a time and edits a line; `consoleread` takes
what is complete.  Both work on one ring of INPUT_BUF bytes with three counters that run
freely: what is committed lies between `r` and `w`, what is pending between `w` and
`e`.  Here are any number of processes in `consoleread`.  They have `cons.lock` but while
they sleep, so a step is one round of the loop, and `consoleintr` is one step.  What is
echoed is left out.

`Lines` is what the ring is for: two lists of bytes, and what a character and a reader do
to them.  Both machines are the same but for that.  `Ring` ties the counters to
the lists, through `Fifo.Holds`; it is kept by every step, and every step does to the
ring what `Lines` says (`console_refines`).
-/
import Xv6.Lib.Fifo
import Xv6.Lib.Machine

namespace Xv6.Console

open Function (update)
open List

def INPUT_BUF : Nat := 128

/-- Control-x. -/
def ctrl (x : Char) : UInt8 := UInt8.ofNat (x.toNat - '@'.toNat)

def DEL : UInt8 := 0x7f
def LF : UInt8 := 10
def CR : UInt8 := 13

/-! ### The ring -/

/-- `cons`, without its lock. -/
structure Cons where
  buf : Nat → UInt8
  /-- Read index. -/
  r : UInt32
  /-- Write index. -/
  w : UInt32
  /-- Edit index. -/
  e : UInt32

namespace Cons

/-- The loop for control-u, which goes round at most `e - w` times. -/
def kill : Nat → Cons → Cons
  | 0, c => c
  | k + 1, c =>
    if c.e ≠ c.w ∧ c.buf ((c.e - 1).toNat % INPUT_BUF) ≠ LF then kill k { c with e := c.e - 1 } else c

/-- The bytes from one counter to another. -/
def between (c : Cons) (i j : UInt32) : List UInt8 :=
  (List.range (j - i).toNat).map fun k => c.buf ((i.toNat + k) % INPUT_BUF)

def committed (c : Cons) : List UInt8 := c.between c.r c.w

def pending (c : Cons) : List UInt8 := c.between c.w c.e

end Cons

/-- The console input interrupt handler. -/
def consoleintr (cons : Cons) (c : UInt8) : Cons :=
  if c = ctrl 'P' then cons
  else if c = ctrl 'U' then cons.kill (cons.e - cons.w).toNat
  else if c = ctrl 'H' ∨ c = DEL then
    if cons.e ≠ cons.w then { cons with e := cons.e - 1 } else cons
  else if c ≠ 0 ∧ cons.e - cons.r < UInt32.ofNat INPUT_BUF then
    let c := if c = CR then LF else c
    -- store for consumption by consoleread()
    let cons := { cons with buf := update cons.buf (cons.e.toNat % INPUT_BUF) c, e := cons.e + 1 }
    if c = LF ∨ c = ctrl 'D' ∨ cons.e = cons.r + UInt32.ofNat INPUT_BUF then { cons with w := cons.e } else cons
  else cons

/-! ### Readers -/

/-- The local variables of `consoleread`, and the bytes it has copied out. -/
structure Frame where
  target : Int
  n : Int
  got : List UInt8
  count : n = target - got.length

namespace Frame

/-- A call for `n` bytes. -/
def new (n : Int) : Frame := { target := n, n := n, got := [], count := by simp }

/-- One byte more. -/
def put (f : Frame) (c : UInt8) : Frame where
  target := f.target
  n := f.n - 1
  got := f.got ++ [c]
  count := by
    rw [f.count, length_append, length_singleton]
    push_cast
    ring

end Frame

/-- Where a process is. -/
inductive Pc where
  | out
  /-- At the test of the loop, with the lock. -/
  | loop (f : Frame)
  /-- In `sleep`. -/
  | asleep (f : Frame)

/-- A buffer, with the processes that read from it.  `done` has what the calls returned: -1, which
is `none`, or the number of bytes copied out, and which. -/
structure Sys (P B : Type) where
  cons : B
  lock : Option P
  pc : P → Pc
  done : List (P × Option (List UInt8))

/-- What can happen. -/
inductive Act (P : Type) where
  | intr (c : UInt8)
  | call (p : P) (n : Int)
  /-- One round of the loop of process `p`, which may have been killed, and whether `either_copyout` succeeds. -/
  | round (p : P) (killed ok : Bool)
  /-- Process `p` returns from `sleep`. -/
  | wake (p : P)

namespace Sys

variable {P B : Type} [DecidableEq P] (s : Sys P B) (p : P)

def setCons (cons : B) : Sys P B := { s with cons := cons }

/-- Take the lock. -/
def enter (f : Frame) : Sys P B := { s with lock := some p, pc := update s.pc p (.loop f) }

/-- Go round the loop. -/
def again (f : Frame) : Sys P B := { s with pc := update s.pc p (.loop f) }

/-- Release the lock and sleep. -/
def sleep (f : Frame) : Sys P B := { s with lock := none, pc := update s.pc p (.asleep f) }

/-- Release the lock and return. -/
def leave (res : Option (List UInt8)) : Sys P B :=
  { s with lock := none, pc := update s.pc p .out, done := s.done ++ [(p, res)] }

end Sys

section Steps

variable {P : Type} [DecidableEq P]

/-- One step, for a buffer with these operations. -/
def stepWith {B : Type} (intr : B → UInt8 → B) (round : Sys P B → P → Frame → Bool → Bool → Sys P B) (s : Sys P B) :
    Act P → Outcome (Sys P B)
  | .intr c => if s.lock = none then .ok (s.setCons (intr s.cons c)) else .blocked
  | .call p n =>
    match s.pc p with
    | .out => if s.lock = none then .ok (s.enter p (.new n)) else .blocked
    | _ => .blocked
  | .round p killed ok =>
    match s.pc p with
    | .loop f => .ok (round s p f killed ok)
    | _ => .blocked
  | .wake p =>
    match s.pc p with
    | .asleep f => if s.lock = none then .ok (s.enter p f) else .blocked
    | _ => .blocked

/-- One round of the loop of `consoleread`. -/
def consoleread (s : Sys P Cons) (p : P) (f : Frame) (killed ok : Bool) : Sys P Cons :=
  if 0 < f.n then
    if s.cons.r = s.cons.w then
      if killed then s.leave p none else s.sleep p f
    else
      let c := s.cons.buf (s.cons.r.toNat % INPUT_BUF)
      let cons := { s.cons with r := s.cons.r + 1 }
      if c = ctrl 'D' then
        -- save ^D for next time
        let cons := if f.n < f.target then { cons with r := cons.r - 1 } else cons
        (s.setCons cons).leave p (some f.got)
      else if ok = false then (s.setCons cons).leave p (some f.got)
      else if c = LF then (s.setCons cons).leave p (some (f.put c).got)
      else (s.setCons cons).again p (f.put c)
  else s.leave p (some f.got)

def step : Machine (Sys P Cons) (Act P) := stepWith consoleintr consoleread

end Steps

/-- Nothing typed, and nobody reads. -/
def boot (P : Type) : Sys P Cons where
  cons := { buf := fun _ => 0, r := 0, w := 0, e := 0 }
  lock := none
  pc := fun _ => .out
  done := []

/-! ### What it is for -/

/-- The bytes that readers can have, and the line that is being typed. -/
structure Lines where
  committed : List UInt8
  pending : List UInt8

namespace Lines

/-- All that is typed becomes available. -/
def commit (l : Lines) : Lines := { committed := l.committed ++ l.pending, pending := [] }

/-- A character is typed. -/
def type (l : Lines) (c : UInt8) : Lines :=
  let l := { l with pending := l.pending ++ [c] }
  if c = LF ∨ c = ctrl 'D' ∨ l.committed.length + l.pending.length = INPUT_BUF then l.commit else l

/-- What a character does. -/
def intr (l : Lines) (c : UInt8) : Lines :=
  if c = ctrl 'P' then l
  else if c = ctrl 'U' then { l with pending := [] }
  else if c = ctrl 'H' ∨ c = DEL then { l with pending := l.pending.dropLast }
  else if c ≠ 0 ∧ l.committed.length + l.pending.length < INPUT_BUF then l.type (if c = CR then LF else c)
  else l

end Lines

section Spec

variable {P : Type} [DecidableEq P]

/-- What a reader does: unless it has all it asked for, it waits, or takes the first byte. -/
def Lines.read (s : Sys P Lines) (p : P) (f : Frame) (killed ok : Bool) : Sys P Lines :=
  if f.n ≤ 0 then s.leave p (some f.got)
  else
    match s.cons.committed with
    | [] => if killed then s.leave p none else s.sleep p f
    | c :: rest =>
      let taken := s.setCons { s.cons with committed := rest }
      if c = ctrl 'D' then
        if f.got = [] then taken.leave p (some []) else s.leave p (some f.got)
      else if ok = false then taken.leave p (some f.got)
      else if c = LF then taken.leave p (some (f.got ++ [c]))
      else taken.again p (f.put c)

def Lines.step : Machine (Sys P Lines) (Act P) := stepWith Lines.intr Lines.read

end Spec

/-- What the ring stands for. -/
def Cons.lines (c : Cons) : Lines := { committed := c.committed, pending := c.pending }

/-- The processes, with what the ring stands for. -/
def Sys.lines {P : Type} (s : Sys P Cons) : Sys P Lines where
  cons := s.cons.lines
  lock := s.lock
  pc := s.pc
  done := s.done

/-! ### The counters -/

/-- The ring holds the lines, behind what has been taken before. -/
structure Ring (c : Cons) (past : List UInt8) (l : Lines) : Prop where
  holds : Fifo.Holds INPUT_BUF (2 ^ 32) c.buf c.r.toNat c.e.toNat (past ++ l.committed ++ l.pending) past.length
  w : c.w.toNat = (past ++ l.committed).length % 2 ^ 32

namespace Ring

variable {c : Cons} {past : List UInt8} {l : Lines} {a : UInt8} {xs : List UInt8} {i j : UInt32}

theorem cap (h : Ring c past l) : l.committed.length + l.pending.length ≤ INPUT_BUF := by
  have hcap := h.holds.cap
  simp only [length_append] at hcap
  omega

theorem toNat_sub {x y : Nat} (hi : i.toNat = x % 2 ^ 32) (hj : j.toNat = (x + y) % 2 ^ 32)
    (hy : y < 2 ^ 32) : (j - i).toNat = y := by
  rw [UInt32.toNat_sub, hi, hj]
  omega

theorem between_eq (h : Ring c past l) {pre post : List UInt8}
    (heq : past ++ l.committed ++ l.pending = pre ++ xs ++ post) (hpre : past.length ≤ pre.length)
    (hi : i.toNat = pre.length % 2 ^ 32) (hj : j.toNat = (pre.length + xs.length) % 2 ^ 32)
    (hlen : xs.length < 2 ^ 32) : c.between i j = xs := by
  have hn := toNat_sub hi hj hlen
  refine ext_getElem (by simp [Cons.between, hn]) fun k hk hk' => ?_
  have hslot : (i.toNat + k) % INPUT_BUF = (pre.length + k) % INPUT_BUF := by
    rw [hi, Nat.add_mod, Nat.mod_mod_of_dvd _ h.holds.dvd, ← Nat.add_mod]
  have hget : (past ++ l.committed ++ l.pending)[pre.length + k]? = some xs[k] := by
    rw [heq, append_assoc, List.getElem?_append_right (Nat.le_add_right _ _), Nat.add_sub_cancel_left,
      List.getElem?_append_left hk', List.getElem?_eq_getElem hk']
  simp only [Cons.between, getElem_map, getElem_range]
  rw [hslot]
  exact h.holds.slot _ _ hget (hpre.trans (Nat.le_add_right _ _))

/-- **The lines are what lies between the counters.** -/
theorem lines (h : Ring c past l) : c.lines = l := by
  have hcap := h.cap
  have he := h.holds.w
  have hw := h.w
  rw [length_append] at he hw
  rw [INPUT_BUF] at hcap
  have hcommitted : c.committed = l.committed := h.between_eq rfl le_rfl h.holds.r hw (by omega)
  have hpending : c.pending = l.pending :=
    h.between_eq (append_nil _).symm (by simp) h.w he (by omega)
  rw [Cons.lines, hcommitted, hpending]

/-! What the tests mean. -/

section

variable (h : Ring c past l)

include h

theorem room_iff : c.e - c.r < UInt32.ofNat INPUT_BUF ↔ l.committed.length + l.pending.length < INPUT_BUF := by
  have hcap := h.cap
  have he := h.holds.w
  simp only [length_append, Nat.add_assoc] at he
  have hn := toNat_sub h.holds.r he (by rw [INPUT_BUF] at hcap; omega)
  rw [UInt32.lt_iff_toNat_lt, hn]
  rfl

theorem full_iff : c.e = c.r + UInt32.ofNat INPUT_BUF ↔ l.committed.length + l.pending.length = INPUT_BUF := by
  have hadd : (c.r + UInt32.ofNat INPUT_BUF).toNat = (c.r.toNat + INPUT_BUF) % 2 ^ 32 := rfl
  rw [← UInt32.toNat_inj, hadd, h.holds.full_iff]
  simp only [length_append]
  omega

theorem pending_nil_iff : c.e = c.w ↔ l.pending = [] := by
  have hcap := h.cap
  have he := h.holds.w
  have hw := h.w
  rw [length_append] at he
  rw [← UInt32.toNat_inj, he, hw, eq_nil_iff_length_eq_zero]
  rw [INPUT_BUF] at hcap
  omega

theorem committed_nil_iff : c.r = c.w ↔ l.committed = [] := by
  have hcap := h.cap
  have hr := h.holds.r
  have hw := h.w
  rw [length_append] at hw
  rw [← UInt32.toNat_inj, hr, hw, eq_nil_iff_length_eq_zero]
  rw [INPUT_BUF] at hcap
  omega

end

/-! What the operations do. -/

section

variable (h : Ring c past l)

include h

theorem push (a : UInt8) (hroom : l.committed.length + l.pending.length < INPUT_BUF) :
    Ring { c with buf := update c.buf (c.e.toNat % INPUT_BUF) a, e := c.e + 1 } past
      { l with pending := l.pending ++ [a] } := by
  refine ⟨?_, h.w⟩
  have hput := h.holds.put a (by simp only [length_append]; omega)
  rw [append_assoc] at hput
  exact hput

/-- All counters agree that what was pending is committed. -/
theorem commit : Ring { c with w := c.e } past l.commit := by
  refine ⟨?_, ?_⟩
  · simpa [Lines.commit, append_assoc] using h.holds
  · have he := h.holds.w
    rw [append_assoc] at he
    exact he

theorem take {rest : List UInt8} (ha : l.committed = a :: rest) :
    c.buf (c.r.toNat % INPUT_BUF) = a ∧ Ring { c with r := c.r + 1 } (past ++ [a]) { l with committed := rest } := by
  have hhist : past ++ l.committed ++ l.pending = past ++ [a] ++ rest ++ l.pending := by simp [ha]
  obtain ⟨hget, hq⟩ := h.holds.take (by simp [ha])
  refine ⟨?_, ?_, ?_⟩
  · rw [hhist] at hget
    simpa using hget.symm
  · rw [hhist] at hq
    simpa using hq
  · rw [h.w, ha]
    simp

theorem pop (ha : l.pending = xs ++ [a]) :
    c.buf ((c.e - 1).toNat % INPUT_BUF) = a ∧ Ring { c with e := c.e - 1 } past { l with pending := xs } := by
  have hq := h.holds
  rw [ha, ← append_assoc] at hq
  obtain ⟨hget, hq⟩ := hq.pop (by simp)
  have he : (c.e - 1).toNat = (c.e.toNat + (2 ^ 32 - 1)) % 2 ^ 32 := by
    rw [UInt32.toNat_sub, Nat.add_comm]
    rfl
  refine ⟨?_, ?_, h.w⟩
  · rw [he]
    exact hget
  · rw [he]
    exact hq

/-- **Control-u.**  There is no end of a line in what is pending, so all of it goes. -/
theorem kill (hclean : LF ∉ l.pending) : Ring (c.kill l.pending.length) past { l with pending := [] } := by
  obtain ⟨com, pen⟩ := l
  induction pen using List.reverseRecOn generalizing c with
  | nil => exact h
  | append_singleton xs a ih =>
    obtain ⟨hget, hpop⟩ := h.pop rfl
    have ha : a ≠ LF := fun haLF => hclean (haLF ▸ by simp)
    have hne : c.e ≠ c.w := mt h.pending_nil_iff.mp (by simp)
    rw [length_append, length_singleton, Cons.kill, if_pos ⟨hne, hget.symm ▸ ha⟩]
    exact ih hpop fun hmem => hclean (mem_append_left _ hmem)

theorem type (a : UInt8) (hroom : l.committed.length + l.pending.length < INPUT_BUF) :
    Ring (let cons := { c with buf := update c.buf (c.e.toNat % INPUT_BUF) a, e := c.e + 1 }
      if a = LF ∨ a = ctrl 'D' ∨ cons.e = cons.r + UInt32.ofNat INPUT_BUF then { cons with w := cons.e } else cons)
      past (l.type a) := by
  have hpush := h.push a hroom
  have hfull := hpush.full_iff
  rw [Lines.type]
  simp only [hfull]
  split
  · exact hpush.commit
  · exact hpush

/-- **`consoleintr` does to the ring what the character does to the lines.** -/
theorem intr (hclean : LF ∉ l.pending) (ch : UInt8) : Ring (consoleintr c ch) past (l.intr ch) := by
  have hlen : (c.e - c.w).toNat = l.pending.length := by
    rw [← congrArg Lines.pending h.lines]
    simp [Cons.lines, Cons.pending, Cons.between]
  rw [consoleintr, Lines.intr, hlen]
  simp only [h.room_iff]
  split
  · exact h
  split
  · exact h.kill hclean
  split
  · split
    · next hne =>
        rcases eq_nil_or_concat' l.pending with hnil | ⟨xs, a, hxs⟩
        · exact absurd (h.pending_nil_iff.mpr hnil) hne
        · rw [hxs, dropLast_concat]
          exact (h.pop hxs).2
    · next heq =>
        have hnil := h.pending_nil_iff.mp (not_not.mp heq)
        have hl : l = { l with pending := [] } := by rw [← hnil]
        exact hl ▸ h
  split
  · next hroom => exact h.type _ hroom.2
  · exact h

end

end Ring

variable {l : Lines}

theorem Lines.type_clean (h : LF ∉ l.pending) (a : UInt8) : LF ∉ (l.type a).pending := by
  rw [type]
  split
  · exact not_mem_nil
  next hno =>
    intro hmem
    rcases mem_append.mp hmem with hold | hnew
    · exact h hold
    · exact hno (.inl (mem_singleton.mp hnew).symm)

/-- What is pending is never a whole line. -/
theorem Lines.intr_clean (h : LF ∉ l.pending) (c : UInt8) : LF ∉ (l.intr c).pending := by
  rw [intr]
  split
  · exact h
  split
  · exact not_mem_nil
  split
  · exact fun hmem => h (dropLast_subset _ hmem)
  split
  · exact type_clean h _
  · exact h

theorem Lines.committed_type_append (l : Lines) (a : UInt8) : l.committed <+: (l.type a).committed := by
  rw [type]
  split
  · exact prefix_append _ _
  · exact prefix_rfl

/-- A character edits nothing that is committed. -/
theorem Lines.committed_intr_append (l : Lines) (c : UInt8) : l.committed <+: (l.intr c).committed := by
  rw [intr]
  split
  · exact prefix_rfl
  split
  · exact prefix_rfl
  split
  · exact prefix_rfl
  split
  · exact l.committed_type_append _
  · exact prefix_rfl

/-! ### Every run -/

section Run

variable {P : Type} {s s' : Sys P Cons} {p : P}

/-- The ring is in order. -/
def Inv (s : Sys P Cons) : Prop := ∃ past, Ring s.cons past s.cons.lines ∧ LF ∉ s.cons.pending

variable {c : Cons} {past : List UInt8} {l : Lines}

/-- The buffer is now one that holds these lines. -/
theorem lines_setCons (h : Ring c past l) : (s.setCons c).lines = s.lines.setCons l := by
  rw [Sys.lines, Sys.setCons, h.lines]
  rfl

theorem Ring.inv (h : Ring c past l) (hclean : LF ∉ l.pending) (hs : s.cons = c) : Inv s := by
  subst hs
  refine ⟨past, h.lines ▸ h, ?_⟩
  rw [← h.lines] at hclean
  exact hclean

theorem inv_boot : Inv (boot P) := by
  have hring : Ring (boot P).cons [] ⟨[], []⟩ := ⟨Fifo.Holds.new (by decide) (by decide) _, rfl⟩
  exact hring.inv not_mem_nil rfl

variable [DecidableEq P]

@[simp] theorem lines_leave (res : Option (List UInt8)) : (s.leave p res).lines = s.lines.leave p res := rfl

@[simp] theorem lines_again (f : Frame) : (s.again p f).lines = s.lines.again p f := rfl

/-- **A round of `consoleread`.** -/
theorem consoleread_refines (h : Inv s) (f : Frame) (killed ok : Bool) :
    (consoleread s p f killed ok).lines = Lines.read s.lines p f killed ok ∧ Inv (consoleread s p f killed ok) := by
  obtain ⟨past, hring, hclean⟩ := h
  rw [consoleread, Lines.read]
  by_cases hn : 0 < f.n
  · rw [if_pos hn, if_neg (not_le.mpr hn)]
    rcases hcom : s.lines.cons.committed with - | ⟨c, rest⟩
    · rw [if_pos (hring.committed_nil_iff.mpr hcom)]
      refine ⟨?_, ?_⟩
      · cases killed <;> rfl
      · cases killed <;> exact ⟨past, hring, hclean⟩
    · obtain ⟨hget, htake⟩ := hring.take hcom
      have hne : s.cons.r ≠ s.cons.w := by
        intro heq
        have hnil : s.lines.cons.committed = [] := hring.committed_nil_iff.mp heq
        rw [hnil] at hcom
        cases hcom
      rw [if_neg hne]
      dsimp only
      rw [hget]
      have hset := lines_setCons (s := s) htake
      split
      · -- ^D is put back unless nothing was copied
        have hgot : f.n < f.target ↔ f.got ≠ [] := by
          rw [f.count, ← length_pos_iff]
          omega
        by_cases hnil : f.got = []
        · rw [if_neg (fun hlt => hgot.mp hlt hnil), if_pos hnil, lines_leave, hset, hnil]
          exact ⟨rfl, htake.inv hclean rfl⟩
        · rw [if_pos (hgot.mpr hnil), if_neg hnil, UInt32.add_sub_cancel]
          exact ⟨rfl, past, hring, hclean⟩
      split
      · exact ⟨by rw [lines_leave, hset]; rfl, htake.inv hclean rfl⟩
      split
      · exact ⟨by rw [lines_leave, hset]; rfl, htake.inv hclean rfl⟩
      · exact ⟨by rw [lines_again, hset]; rfl, htake.inv hclean rfl⟩
  · rw [if_neg hn, if_pos (not_lt.mp hn)]
    exact ⟨rfl, past, hring, hclean⟩

/-- **A step.** -/
theorem step_refines (h : Inv s) (act : Act P) :
    (step s act).map Sys.lines = Lines.step s.lines act ∧ ∀ s', step s act = .ok s' → Inv s' := by
  have hlock : s.lines.lock = s.lock := rfl
  have hpc : s.lines.pc = s.pc := rfl
  cases act with
  | intr c =>
    obtain ⟨past, hring, hclean⟩ := h
    have hintr := hring.intr hclean c
    simp only [step, Lines.step, stepWith, hlock]
    split
    · refine ⟨congrArg Outcome.ok (lines_setCons hintr), ?_⟩
      rintro s' ⟨⟩
      exact hintr.inv (Lines.intr_clean hclean c) rfl
    · exact ⟨rfl, nofun⟩
  | call | wake =>
    simp only [step, Lines.step, stepWith, hlock, hpc]
    split
    · split
      · refine ⟨rfl, ?_⟩
        rintro s' ⟨⟩
        exact h
      · exact ⟨rfl, nofun⟩
    · exact ⟨rfl, nofun⟩
  | round q killed ok =>
    simp only [step, Lines.step, stepWith, hpc]
    split
    · next f _ =>
        obtain ⟨hlines, hinv⟩ := consoleread_refines (p := q) h f killed ok
        refine ⟨congrArg Outcome.ok hlines, ?_⟩
        rintro s' ⟨⟩
        exact hinv
    · exact ⟨rfl, nofun⟩

/-- A run of the console is a run of the specification. -/
theorem lines_run {acts : List (Act P)} (hr : Machine.Run step (boot P) acts s) :
    Inv s ∧ Machine.Run Lines.step (boot P).lines acts s.lines := by
  induction hr with
  | nil => exact ⟨inv_boot, .nil _⟩
  | snoc _ hl ih =>
    obtain ⟨hlines, hinv⟩ := step_refines ih.1 _
    rw [hl] at hlines
    exact ⟨hinv _ hl, ih.2.snoc hlines.symm⟩

/-- **The console is what `Lines` says**, in every state of every run, however often the counters have
wrapped: the lines fit the ring, they are what the specification has come to, every step does to them
what the specification says, and no character edits or removes what is committed. -/
theorem console_refines {acts : List (Act P)} (hr : Machine.Run step (boot P) acts s) :
    s.cons.committed.length + s.cons.pending.length ≤ INPUT_BUF ∧
      Machine.Run Lines.step (boot P).lines acts s.lines ∧
      (∀ act, (step s act).map Sys.lines = Lines.step s.lines act) ∧
      ∀ c s', step s (.intr c) = .ok s' → s.cons.committed <+: s'.cons.committed := by
  obtain ⟨⟨past, hring, hclean⟩, hspec⟩ := lines_run hr
  refine ⟨hring.cap, hspec, fun act => (step_refines ⟨past, hring, hclean⟩ act).1, fun c s' hs => ?_⟩
  rw [step, stepWith] at hs
  split at hs
  · obtain rfl := Outcome.ok.inj hs
    have hnew : (consoleintr s.cons c).committed = (s.cons.lines.intr c).committed :=
      congrArg Lines.committed (hring.intr hclean c).lines
    show s.cons.lines.committed <+: (consoleintr s.cons c).committed
    rw [hnew]
    exact Lines.committed_intr_append _ c
  · cases hs

/-- A line is typed, with a correction, while process 0 waits for it. -/
def typeLine : List (Act (Fin 2)) :=
  [.call 0 10, .round 0 false true, .intr 97, .intr 98, .intr DEL, .intr CR, .wake 0, .round 0 false true,
    .round 0 false true]

/-- The reader gets the corrected line. -/
theorem console_refines_typeLine :
    ∃ s, Machine.Run step (boot (Fin 2)) typeLine s ∧ s.done = [(0, some [97, 10])] ∧
      s.cons.committed.length + s.cons.pending.length ≤ INPUT_BUF := by
  obtain ⟨s, hs, hdone⟩ : ∃ s, Machine.outcome step (boot (Fin 2)) typeLine = .ok s ∧
      s.done = [(0, some [97, 10])] := ⟨_, rfl, rfl⟩
  have hr := Machine.run_of_outcome hs
  exact ⟨s, hr, hdone, (console_refines hr).1⟩

end Run

end Xv6.Console
