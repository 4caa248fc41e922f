/-
Xv6/PipeFifo.lean

A pipe is a bounded queue.

`Queue` ties the ring and its 32-bit counters to all that was ever put in and taken
out; what the tests for "full" and "empty" mean comes from `Fifo.Holds`, however often
the counters have wrapped.  Only the process that has `pi->lock` changes the pipe, so
what a process has tested stays true until it releases the lock in `sleep`: this is
`Known`.  `Calls` says which of the bytes belong to which call of `pipewrite`.
-/
import Xv6.Pipe

namespace Xv6.Pipes

open Function List
open Sched (Pipe PIPESIZE)

variable {n : Nat} {s s' : Sys n} {p : Fin n}

/-! ### The queue -/

/-- The pipe is such that callers sleep on the channel. -/
def Blocks (x : Pipe) : Chan → Prop
  | .nread => empty x ∧ x.writeopen = true
  | .nwrite => full x ∧ x.readopen = true

/-- The ring holds what was put in and not taken out, and what was taken out is what was
put in first. -/
def Queue (s : Sys n) : Prop :=
  Fifo.Holds PIPESIZE (2 ^ 32) s.pipe.data s.pipe.nread.toNat s.pipe.nwrite.toNat (s.ins.map In.byte)
    s.outs.length ∧ s.outs <+: s.ins.map In.byte

namespace Queue

theorem empty_iff (h : Queue s) : empty s.pipe ↔ s.outs.length = s.ins.length := by
  rw [empty, ← UInt32.toNat_inj, h.1.empty_iff, length_map]

theorem full_iff (h : Queue s) : full s.pipe ↔ s.ins.length = s.outs.length + PIPESIZE := by
  have hadd : (s.pipe.nread + UInt32.ofNat PIPESIZE).toNat = (s.pipe.nread.toNat + PIPESIZE) % 2 ^ 32 := rfl
  rw [full, ← UInt32.toNat_inj, hadd, h.1.full_iff, length_map]

theorem put (h : Queue s) (ch : UInt8) (hroom : ¬ full s.pipe) : Queue (s.put p ch) := by
  have hcap : s.ins.length ≤ s.outs.length + PIPESIZE := by simpa using h.1.cap
  have hne := mt h.full_iff.mpr hroom
  refine ⟨?_, ?_⟩
  · have hput := h.1.put ch (by rw [length_map]; omega)
    rw [Sys.put_ins, map_append]
    exact hput
  · rw [Sys.put_ins, map_append]
    exact h.2.trans (prefix_append _ _)

theorem take (h : Queue s) (hne : ¬ empty s.pipe) : Queue s.take := by
  have hle : s.outs.length ≤ s.ins.length := by simpa using h.1.le
  have hlt : s.outs.length < s.ins.length := lt_of_le_of_ne hle (mt h.empty_iff.mpr hne)
  obtain ⟨hget, hq⟩ := h.1.take (by rw [length_map]; exact hlt)
  refine ⟨?_, ?_⟩
  · rw [Sys.take_outs, length_append, length_singleton]
    exact hq
  -- what is taken out is the next element of what was put in
  rw [Sys.take_outs, Sys.take_ins, prefix_iff_eq_take, length_append, length_singleton,
    take_add_one, ← prefix_iff_eq_take.mp h.2, hget]
  rfl

end Queue

/-! ### What a process knows while it has the lock -/

/-- What a process at `pc` knows about the pipe. -/
def Known (x : Pipe) : Pc n → Prop
  | .sleep f | .unlock f | .wake _ _ (.sleep f) => Blocks x f.chan
  | .wake _ _ (.ret (.write _ _ i) r) => r = i
  | _ => True

variable {x : Pipe}

/-- Whoever knows something that others can change has the lock. -/
theorem Known.of_not_holds {y : Pipe} {pc : Pc n} (h : pc.holds = false) : Known x pc ↔ Known y pc := by
  cases pc with
  | sleep f | unlock f | wake ch ps k => cases h
  | _ => exact Iff.rfl

theorem Known.wake {ch : Chan} {ps : List (Fin n)} {k : After} (h : Known x (.wake ch ps k))
    (qs : List (Fin n)) : Known x (.wake ch qs k) := by
  rcases k with f | ⟨f, r⟩ | -
  · exact h
  · cases f with
    | write src m i => exact h
    | read dst m => trivial
  · trivial

/-- The lock, the queue, and what the processes know. -/
structure Inv (s : Sys n) : Prop where
  holder : ∀ p, (s.pc p).holds = true ↔ s.lock = some p
  known : ∀ p, Known s.pipe (s.pc p)
  queue : Queue s

namespace Inv

variable {pc : Pc n}

section

variable (h : Inv s)

include h

/-- One process moves: it takes, keeps or releases the lock, and changes the pipe only while it
has it. -/
theorem move (hpc : s'.pc = update s.pc p pc)
    (hlock : s'.lock = if pc.holds then some p else if (s.pc p).holds then none else s.lock)
    (hfree : pc.holds = true → (s.pc p).holds = true ∨ s.lock = none)
    (hpipe : s'.pipe = s.pipe ∨ pc.holds = true) (hknown : Known s'.pipe pc) (hqueue : Queue s') : Inv s' := by
  have hother : ∀ q, q ≠ p → pc.holds = true → (s.pc q).holds = false := by
    intro q hq hpcs
    rw [Bool.eq_false_iff, ne_eq, h.holder q]
    rcases hfree hpcs with hp | hnone
    · rw [(h.holder p).mp hp]
      exact fun heq => hq (Option.some.inj heq).symm
    · rw [hnone]
      exact nofun
  refine ⟨fun q => ?_, fun q => ?_, hqueue⟩
  · rw [hpc, hlock]
    rcases eq_or_ne q p with rfl | hq
    · rw [update_self]
      cases hpcs : pc.holds with
      | true => simp
      | false =>
        by_cases hold : (s.pc q).holds = true
        · simp [hold]
        · have := mt (h.holder q).mpr hold
          simp [hold, this]
    · rw [update_of_ne hq]
      cases hpcs : pc.holds with
      | true => simp [hother q hq hpcs, Ne.symm hq]
      | false =>
        by_cases hold : (s.pc p).holds = true
        · have hlk := (h.holder p).mp hold
          simp [hold, h.holder q, hlk, Ne.symm hq]
        · simp [hold, h.holder q]
  · rw [hpc]
    rcases eq_or_ne q p with rfl | hq
    · rw [update_self]
      exact hknown
    rw [update_of_ne hq]
    rcases hpipe with hx | hpcs
    · rw [hx]
      exact h.known q
    · exact (Known.of_not_holds (hother q hq hpcs)).mp (h.known q)

/-- A process that has the lock keeps it. -/
theorem keep (hold : (s.pc p).holds = true) (hnew : pc.holds = true)
    (hpc : s'.pc = update s.pc p pc) (hlock : s'.lock = s.lock) (hknown : Known s'.pipe pc)
    (hqueue : Queue s') : Inv s' :=
  h.move hpc (by rw [hlock, hnew, if_pos rfl, (h.holder p).mp hold]) (fun _ => .inl hold) (.inr hnew) hknown hqueue

/-- A process that has the lock releases it. -/
theorem release (hold : (s.pc p).holds = true) (hnew : pc.holds = false)
    (hpc : s'.pc = update s.pc p pc) (hlock : s'.lock = none) (hpipe : s'.pipe = s.pipe)
    (hknown : Known s'.pipe pc) (hqueue : Queue s') : Inv s' :=
  h.move hpc (by rw [hlock, hnew, hold, if_neg Bool.false_ne_true, if_pos rfl])
    (fun hc => absurd hc (by rw [hnew]; exact Bool.false_ne_true)) (.inl hpipe) hknown hqueue

/-- A process takes the lock. -/
theorem acquire (hfree : s.lock = none) (hnew : pc.holds = true)
    (hpc : s'.pc = update s.pc p pc) (hlock : s'.lock = some p) (hknown : Known s'.pipe pc)
    (hqueue : Queue s') : Inv s' :=
  h.move hpc (by rw [hlock, hnew, if_pos rfl]) (fun _ => .inr hfree) (.inr hnew) hknown hqueue

/-- A process does not have the lock, before and after. -/
theorem apart (hold : (s.pc p).holds = false) (hnew : pc.holds = false)
    (hpc : s'.pc = update s.pc p pc) (hlock : s'.lock = s.lock) (hpipe : s'.pipe = s.pipe)
    (hknown : Known s'.pipe pc) (hqueue : Queue s') : Inv s' :=
  h.move hpc (by rw [hlock, hnew, hold, if_neg Bool.false_ne_true, if_neg Bool.false_ne_true])
    (fun hc => absurd hc (by rw [hnew]; exact Bool.false_ne_true)) (.inl hpipe) hknown hqueue

/-- **A step of a process** keeps the invariant. -/
theorem pstep (hs : PStep s p s') : Inv s' := by
  have hk := h.known p
  have hq := h.queue
  cases hs with
  | write _ _ hpc | read _ _ hpc | shut _ hpc | doze _ hpc | back _ hpc =>
    exact h.apart (by rw [hpc]; rfl) rfl rfl rfl rfl trivial hq
  | lock _ _ hl | closeLock _ _ hl => exact h.acquire hl rfl rfl rfl trivial hq
  | refuse _ _ _ _ hpc | killed _ _ _ hpc | ret _ _ _ hpc | close _ hpc | unlock _ hpc =>
    exact h.release (by rw [hpc]; rfl) rfl rfl rfl rfl trivial hq
  | full src m i d hpc hopen hfull => exact h.keep (by rw [hpc]; rfl) rfl rfl rfl ⟨hfull, hopen⟩ hq
  | stop src m i d hpc => exact h.keep (by rw [hpc]; rfl) rfl rfl rfl rfl hq
  | put src m i d ch hpc hopen hkill hfull hch =>
    exact h.keep (by rw [hpc]; rfl) rfl rfl rfl trivial (hq.put ch hfull)
  | wait dst m d hpc hempty hopen => exact h.keep (by rw [hpc]; rfl) rfl rfl rfl ⟨hempty, hopen⟩ hq
  | start _ _ _ hpc | copied _ _ _ hpc => exact h.keep (by rw [hpc]; rfl) rfl rfl rfl trivial hq
  | take dst m i pc hpc hne hpc' =>
    rcases hpc' with rfl | rfl
    · exact h.keep (by rw [hpc]; rfl) rfl rfl rfl trivial (hq.take hne)
    · exact h.keep (by rw [hpc]; rfl) rfl rfl rfl trivial (hq.take hne)
  | skip _ _ qs _ hpc | rouse _ _ qs _ hpc =>
    rw [hpc] at hk
    exact h.keep (by rw [hpc]; rfl) rfl rfl rfl (hk.wake qs) hq
  | sleep _ _ hpc | own _ hpc =>
    rw [hpc] at hk
    exact h.keep (by rw [hpc]; rfl) rfl rfl rfl hk hq

theorem kill : Inv (s.kill p) := ⟨h.holder, h.known, h.queue⟩

theorem step {a : Act n} (hs : Pipes.step s a = .ok s') : Inv s' := by
  obtain ⟨p, hp⟩ | ⟨p, -, -, rfl⟩ := step_cases hs
  · exact h.pstep hp
  · exact h.kill

end

theorem new (data : Nat → UInt8) : Inv (pipealloc data : Sys n) :=
  ⟨fun _ => ⟨nofun, nofun⟩, fun _ => trivial, Fifo.Holds.new (by decide) (by decide) data, nil_prefix⟩

end Inv

/-! ### The calls -/

/-- The bytes that one call of `pipewrite` put in. -/
def bytesOf (ins : List (In n)) (p : Fin n) (c : Nat) : List UInt8 :=
  (ins.filter fun x => x.who = p ∧ x.call = c).map In.byte

/-- One call has put in the first `i` bytes of its buffer, in order. -/
def Sent (ins : List (In n)) (p : Fin n) (c : Nat) (src : Nat → Option UInt8) (i : Nat) : Prop :=
  (bytesOf ins p c).map some = (List.range i).map src

theorem bytesOf_append (ins : List (In n)) (x : In n) (q : Fin n) (c : Nat) :
    bytesOf (ins ++ [x]) q c = bytesOf ins q c ++ if x.who = q ∧ x.call = c then [x.byte] else [] := by
  rw [bytesOf, filter_append, map_append, bytesOf]
  split
  · rename_i hx
    simp [hx]
  · rename_i hx
    simp [hx]

variable {ins : List (In n)} {c i : Nat} {src : Nat → Option UInt8}

theorem Sent.put {ch : UInt8}
    (h : Sent ins p c src i) (hch : src i = some ch) : Sent (ins ++ [⟨p, c, ch⟩]) p c src (i + 1) := by
  rw [Sent] at h ⊢
  rw [bytesOf_append, if_pos ⟨rfl, rfl⟩, map_append, h, range_succ, map_append, map_singleton,
    map_singleton, hch]

theorem Sent.other {x : In n} {q : Fin n}
    (h : Sent ins q c src i) (hne : ¬ (x.who = q ∧ x.call = c)) : Sent (ins ++ [x]) q c src i := by
  rw [Sent, bytesOf_append, if_neg hne, append_nil]
  exact h

/-- Calls of `pipewrite`, those that run and those that have returned. -/
structure Calls (s : Sys n) : Prop where
  num : ∀ x ∈ s.ins, x.call ≤ s.calls x.who
  running : ∀ p src m i, (s.pc p).frame = some (.write src m i) → Sent s.ins p (s.calls p) src i
  past : ∀ x ∈ s.results, x.call ≤ s.calls x.who ∧
    ∀ src m i, (s.pc x.who).frame = some (.write src m i) → x.call < s.calls x.who
  done : ∀ x ∈ s.results, ∃ i, Sent s.ins x.who x.call x.src i ∧ (0 ≤ x.r → x.r = i)

namespace Calls

section

variable (h : Calls s)

include h

/-- A process moves on in its call, or to where it is in no call of `pipewrite`. -/
theorem move {pc : Pc n} (hpc : s'.pc = update s.pc p pc)
    (hframe : ∀ src m i, pc.frame = some (.write src m i) → (s.pc p).frame = some (.write src m i))
    (hins : s'.ins = s.ins) (hcalls : s'.calls = s.calls) (hres : s'.results = s.results) : Calls s' := by
  have hsub : ∀ q src m i, (s'.pc q).frame = some (.write src m i) → (s.pc q).frame = some (.write src m i) := by
    intro q src m i hq
    rw [hpc] at hq
    rcases eq_or_ne q p with rfl | hqp
    · rw [update_self] at hq
      exact hframe src m i hq
    · rwa [update_of_ne hqp] at hq
  refine ⟨?_, fun q src m i hq => ?_, ?_, ?_⟩
  · rw [hins, hcalls]
    exact h.num
  · rw [hins, hcalls]
    exact h.running q src m i (hsub q src m i hq)
  · rw [hres, hcalls]
    exact fun x hx => ⟨(h.past x hx).1, fun src m i hq => (h.past x hx).2 src m i (hsub _ src m i hq)⟩
  · rw [hres, hins]
    exact h.done

/-- A new call has put in nothing yet. -/
theorem start (src : Nat → Option UInt8) (m : Int) : Calls ((s.count p).goto p (.enter (.write src m 0))) := by
  have hle : ∀ q, s.calls q ≤ update s.calls p (s.calls p + 1) q := by
    intro q
    rcases eq_or_ne q p with rfl | hq
    · rw [update_self]
      exact Nat.le_succ _
    · rw [update_of_ne hq]
  refine ⟨fun x hx => (h.num x hx).trans (hle x.who), fun q src' m' i' hq => ?_, fun x hx => ?_, h.done⟩
  · simp only [Sys.goto_pc, Sys.goto_calls, Sys.goto_ins, Sys.count_calls, Sys.count_ins] at hq ⊢
    rcases eq_or_ne q p with rfl | hqp
    · rw [update_self] at hq ⊢
      cases hq
      -- no byte has the new number
      have hnil : bytesOf s.ins q (s.calls q + 1) = [] := by
        rw [bytesOf, map_eq_nil_iff, filter_eq_nil_iff]
        intro x hx hcall
        obtain ⟨rfl, hc⟩ := of_decide_eq_true hcall
        have := h.num x hx
        omega
      rw [Sent, hnil]
      rfl
    · rw [update_of_ne hqp] at hq ⊢
      exact h.running q src' m' i' hq
  · obtain ⟨hcall, hlt⟩ := h.past x hx
    refine ⟨hcall.trans (hle x.who), fun src' m' i' hq => ?_⟩
    simp only [Sys.goto_pc, Sys.goto_calls, Sys.count_calls] at hq ⊢
    by_cases hqp : x.who = p
    · rw [hqp, update_self]
      rw [hqp] at hcall
      omega
    · rw [update_of_ne hqp] at hq ⊢
      exact hlt src' m' i' hq

theorem put {m : Int} {d : Bool} {ch : UInt8} (hpc : s.pc p = .loop (.write src m i) d) (hch : src i = some ch) :
    Calls ((s.put p ch).goto p (.loop (.write src m (i + 1)) true)) := by
  have hframe : (s.pc p).frame = some (.write src m i) := by rw [hpc]; rfl
  refine ⟨fun x hx => ?_, fun q src' m' i' hq => ?_, fun x hx => ?_, fun x hx => ?_⟩
  · rcases mem_append.mp hx with hx | hx
    · exact h.num x hx
    · rw [mem_singleton.mp hx]
      exact le_rfl
  · simp only [Sys.goto_pc, Sys.goto_calls, Sys.goto_ins, Sys.put_calls, Sys.put_ins] at hq ⊢
    rcases eq_or_ne q p with rfl | hqp
    · rw [update_self] at hq
      cases hq
      exact (h.running q src m i hframe).put hch
    · rw [update_of_ne hqp] at hq
      exact (h.running q src' m' i' hq).other fun heq => hqp heq.1.symm
  · obtain ⟨hcall, hlt⟩ := h.past x hx
    refine ⟨hcall, fun src' m' i' hq => ?_⟩
    rw [Sys.goto_pc] at hq
    by_cases hqp : x.who = p
    · exact hlt src m i (by rw [hqp, hframe])
    · rw [update_of_ne hqp] at hq
      exact hlt src' m' i' hq
  · -- the call that puts in the byte has not returned
    obtain ⟨k, hsent, hr⟩ := h.done x hx
    refine ⟨k, hsent.other ?_, hr⟩
    rintro ⟨hwho, hcall⟩
    have hlt := (h.past x hx).2 src m i (by rw [← hwho, hframe])
    rw [← hwho] at hlt
    exact absurd hcall hlt.ne'

/-- A call returns. -/
theorem leave {f : Frame} {r : Int} (hf : (s.pc p).frame = some f)
    (hr : ∀ src m i, f = .write src m i → 0 ≤ r → r = i) : Calls (s.leave p f r) := by
  have hout : ∀ q src m i, ((s.leave p f r).pc q).frame = some (.write src m i) →
      (s.pc q).frame = some (.write src m i) ∧ q ≠ p := by
    intro q src m i hq
    rw [Sys.leave_pc] at hq
    by_cases hqp : q = p
    · rw [hqp, update_self] at hq
      cases hq
    · rw [update_of_ne hqp] at hq
      exact ⟨hq, hqp⟩
  have hpast : ∀ x ∈ s.results, x.call ≤ s.calls x.who ∧
      ∀ src m i, ((s.leave p f r).pc x.who).frame = some (.write src m i) → x.call < s.calls x.who :=
    fun x hx => ⟨(h.past x hx).1, fun src m i hq => (h.past x hx).2 src m i (hout _ _ _ _ hq).1⟩
  refine ⟨h.num, fun q src m i hq => h.running q src m i (hout q src m i hq).1, ?_, ?_⟩
  · cases f with
    | read dst m => exact hpast
    | write src m i =>
      intro x hx
      rcases mem_cons.mp hx with rfl | hx
      · exact ⟨le_rfl, fun src' m' i' hq => absurd rfl (hout _ _ _ _ hq).2⟩
      · exact hpast x hx
  · cases f with
    | read dst m => exact h.done
    | write src m i =>
      intro x hx
      rcases mem_cons.mp hx with rfl | hx
      · exact ⟨i, h.running p src m i hf, hr src m i rfl⟩
      · exact h.done x hx

/-- **A step of a process** keeps what is known about the calls. -/
theorem pstep (hinv : Inv s) (hs : PStep s p s') : Calls s' := by
  cases hs with
  | write src m hpc => exact h.start src m
  | read | shut | wait | start | copied | close | closeLock => exact h.move rfl nofun rfl rfl rfl
  | lock f hpc hl =>
    refine h.move rfl (fun src m i hf => ?_) rfl rfl rfl
    rcases hpc with hpc | hpc
    · rw [hpc]
      exact hf
    · rw [hpc]
      exact hf
  | refuse _ _ _ _ hpc | killed _ _ _ hpc => exact h.leave (by rw [hpc]; rfl) nofun
  | full _ _ _ _ hpc | stop _ _ _ _ hpc | sleep _ _ hpc | own _ hpc | unlock _ hpc | doze _ hpc | back _ hpc =>
    exact h.move rfl (by rw [hpc]; exact fun _ _ _ hf => hf) rfl rfl rfl
  | put src m i d ch hpc hopen hkill hfull hch => exact h.put hpc hch
  | take dst m i pc hpc hne hpc' =>
    rcases hpc' with rfl | rfl
    · exact h.move rfl nofun rfl rfl rfl
    · exact h.move rfl nofun rfl rfl rfl
  | skip _ _ _ k hpc | rouse _ _ _ k hpc =>
    exact h.move rfl (by rw [hpc]; cases k <;> exact fun _ _ _ hf => hf) rfl rfl rfl
  | ret ch f r hpc =>
    have hk := hinv.known p
    rw [hpc] at hk
    refine h.leave (by rw [hpc]; rfl) fun src m i hf _ => ?_
    subst hf
    exact hk

theorem step {a : Act n} (hinv : Inv s) (hs : Pipes.step s a = .ok s') : Calls s' := by
  obtain ⟨p, hp⟩ | ⟨p, -, -, rfl⟩ := step_cases hs
  · exact h.pstep hinv hp
  · exact ⟨h.num, h.running, h.past, h.done⟩

end

theorem new (data : Nat → UInt8) : Calls (pipealloc data : Sys n) := ⟨nofun, nofun, nofun, nofun⟩

end Calls

/-! ### Every run -/

/-- **A pipe is a bounded queue**, for any number of writers and readers and any number of bytes:
in every run from a new pipe

* the counters are those of the bytes put in and taken out, modulo 2^32, and differ by at most
  `PIPESIZE`;
* the bytes taken out are the first of those put in, and the others are in the ring;
* a process that goes to sleep in `pipewrite` found `PIPESIZE` bytes in the pipe, one in
  `piperead` found none;
* a call of `pipewrite`, while it runs and when it has returned, has put in the bytes of its
  buffer in order, and its result is their number, unless it is negative. -/
theorem pipe_is_queue (data : Nat → UInt8) (acts : List (Act n)) (s : Sys n)
    (hrun : Machine.Run step (pipealloc data) acts s) :
    (s.pipe.nwrite.toNat = s.ins.length % 2 ^ 32 ∧ s.pipe.nread.toNat = s.outs.length % 2 ^ 32 ∧
      (s.pipe.nwrite - s.pipe.nread).toNat = s.ins.length - s.outs.length ∧
      (s.pipe.nwrite - s.pipe.nread).toNat ≤ PIPESIZE) ∧
    (s.outs <+: s.ins.map In.byte ∧
      ∀ k x, s.ins[k]? = some x → s.outs.length ≤ k → s.pipe.data (k % PIPESIZE) = x.byte) ∧
    (∀ p f, s.pc p = .sleep f ∨ s.pc p = .unlock f →
      s.ins.length = s.outs.length + match f with
        | .write _ _ _ => PIPESIZE
        | .read _ _ => 0) ∧
    (∀ p src m i, (s.pc p).frame = some (.write src m i) → Sent s.ins p (s.calls p) src i) ∧
    ∀ x ∈ s.results, ∃ i, Sent s.ins x.who x.call x.src i ∧ (0 ≤ x.r → x.r = i) := by
  obtain ⟨hinv, hcalls⟩ : Inv s ∧ Calls s :=
    hrun.invariant (I := fun s => Inv s ∧ Calls s) (fun _ _ _ h hs => ⟨h.1.step hs, h.2.step h.1 hs⟩)
      ⟨Inv.new data, Calls.new data⟩
  obtain ⟨hq, houts⟩ := hinv.queue
  refine ⟨?_, ⟨houts, fun k x hx hk => ?_⟩, fun p f hpc => ?_, hcalls.running, hcalls.done⟩
  · have hsub : (s.pipe.nwrite - s.pipe.nread).toNat = s.ins.length - s.outs.length := by
      rw [UInt32.toNat_sub, Nat.add_comm, hq.count, length_map]
    have hcap := hq.cap
    rw [length_map] at hcap
    refine ⟨by simpa using hq.w, hq.r, hsub, ?_⟩
    omega
  · exact hq.slot k x.byte (by rw [List.getElem?_map, hx]; rfl) hk
  · have hblocks : Blocks s.pipe f.chan := by
      have hk := hinv.known p
      rcases hpc with hpc | hpc
      · rw [hpc] at hk
        exact hk
      · rw [hpc] at hk
        exact hk
    cases f with
    | write src m i => exact hinv.queue.full_iff.mp hblocks.1
    | read dst m => exact (hinv.queue.empty_iff.mp hblocks.1).symm

/-- A process writes two bytes and another one reads one. -/
def writeRead : List (Act 2) :=
  .pipewrite 0 (fun i => some (7 + i.toUInt8)) 2 :: List.replicate 7 (.step 0) ++
    .piperead 1 (fun _ => true) 1 :: List.replicate 7 (.step 1)

theorem pipe_is_queue_one : ∃ s, Machine.Run step (pipealloc fun _ => 0) writeRead s ∧
    s.outs = [7] ∧ s.ins.map In.byte = [7, 8] ∧ (s.pipe.nwrite - s.pipe.nread).toNat ≤ PIPESIZE ∧
    ∃ x ∈ s.results, x.r = 2 ∧ ∃ i, Sent s.ins x.who x.call x.src i ∧ (0 ≤ x.r → x.r = i) := by
  have hpass : Machine.passes step (pipealloc fun _ => 0) writeRead (fun s => decide
      (s.outs = [7] ∧ s.ins.map In.byte = [7, 8] ∧ ∃ x ∈ s.results, x.r = 2)) = true := by
    decide
  obtain ⟨s, hrun, hs⟩ := Machine.run_of_passes hpass
  obtain ⟨houts, hins, x, hx, hr⟩ := of_decide_eq_true hs
  obtain ⟨hcount, -, -, -, hdone⟩ := pipe_is_queue _ _ s hrun
  exact ⟨s, hrun, houts, hins, hcount.2.2.2, x, hx, hr, hdone x hx⟩

end Xv6.Pipes
