/-
Xv6/Xargs.lean

user/xargs.c: a command for each line of the standard input.

The original process and the children that it forks run the same loop, and all of them read
from the same input.  A parent waits for its child, so that at any time one process runs:
`xargs` is what a process does until it is gone, with what its children do in between.  `fork` and
`exec` succeed or fail as `Env` says; a command that has been started leaves the input alone.

A child whose `exec` fails goes on with the loop, and so does a process, as the child it has
not got, when `fork` fails.  The index `m` is compared with the size of the buffer when `read`
has stored a byte there.
-/
import Xv6.Grep

namespace Xv6.Xargs

open List
open Grep (newline lines lines_cons lines_single splitOn_line splitOn_single)

/-- Max number of arguments of `exec`, with the null pointer. -/
def MAXARG : Nat := 32

/-- What the processes do; the original one is process 0. -/
inductive Event where
  /-- `read(0, buf + m, 1)`, and the byte that it stores. -/
  | read (pid m : Nat) (c : Option UInt8)
  /-- `buf[m] = '\0'` -/
  | nul (m : Nat)
  /-- A store into `arg[i]`. -/
  | arg (i : Int)
  | fork (pid : Nat) (child : Option Nat)
  | exec (pid : Nat) (args : List Str)
  deriving DecidableEq

/-- The arguments of `main`, and which calls of `fork` and `exec` succeed. -/
structure Env where
  argv : List Str
  fork : Nat → Bool
  exec : Nat → Bool

/-- What is left of the input, the number of calls of `fork` and of `exec`, and what has happened. -/
structure World where
  input : Str
  forks : Nat
  execs : Nat
  log : List Event

namespace Env

def echo : Str := [101, 99, 104, 111]

/-- `size`, which is -1 if there is not even the name of the program. -/
def size (env : Env) : Int := env.argv.length - 1

def program_name (env : Env) : Str := env.argv.getD 1 echo

def argIndex (env : Env) : Int := if env.size = 0 then 1 else env.size

/-- The stores into `arg`: by `memmove`, the name if there is no command, the line and the null pointer. -/
def stores (env : Env) : List Event :=
  ((range env.size.toNat).map Int.ofNat ++ (if env.size = 0 then [0] else []) ++
    [env.argIndex, env.argIndex + 1]).map .arg

/-- The strings in `arg` before the null pointer, which comes first if `size` is -1. -/
def args (env : Env) (line : Str) : List Str :=
  if env.size < 0 then [] else (if env.size = 0 then [env.program_name] else env.argv.tail) ++ [line]

end Env

/-- `xargs_exec`, when process `p` goes on with `k p`. -/
def xargs_exec (env : Env) (k : Nat → World → Option World) (pid : Nat) (args : List Str) (w : World) :
    Option World :=
  if env.fork w.forks then
    let child := w.forks + 1
    let w' : World := ⟨w.input, w.forks + 1, w.execs + 1, w.log ++ [.fork pid (some child), .exec child args]⟩
    -- the parent waits until the child is gone
    if env.exec w.execs then k pid w' else (k child w').bind (k pid)
  else
    let w' : World := ⟨w.input, w.forks + 1, w.execs + 1, w.log ++ [.fork pid none, .exec pid args]⟩
    if env.exec w.execs then some w' else k pid w'

/-- `xargs`, with the beginning of a line in the buffer, until the process is gone.  `fuel` bounds the bytes that are
read. -/
def xargs (env : Env) : Nat → Nat → Str → World → Option World
  | 0, _, _, _ => none
  | fuel + 1, pid, buf, w =>
    match w.input with
    | [] => some ⟨[], w.forks, w.execs, w.log ++ [.read pid buf.length none]⟩
    | c :: input =>
      let log := w.log ++ [.read pid buf.length (some c)]
      if buf.length > 1023 then some ⟨input, w.forks, w.execs, log⟩
      else if c = newline then
        xargs_exec env (fun p => xargs env fuel p []) pid (env.args buf)
          ⟨input, w.forks, w.execs, log ++ .nul buf.length :: env.stores⟩
      else xargs env fuel pid (buf ++ [c]) ⟨input, w.forks, w.execs, log⟩

def main (env : Env) (input : Str) : Option World := xargs env (input.length + 1) 0 [] ⟨input, 0, 0, []⟩

/-! ### The loop -/

section Loop

variable {env : Env} {fuel pid f e : Nat} {buf input : Str} {c : UInt8} {log : List Event} {w w' : World}

theorem xargs_byte (hb : buf.length < 1024) (hc : c ≠ newline) :
    xargs env (fuel + 1) pid buf ⟨c :: input, f, e, log⟩ =
      xargs env fuel pid (buf ++ [c]) ⟨input, f, e, log ++ [.read pid buf.length (some c)]⟩ := by
  rw [xargs]
  simp only [if_neg (show ¬ buf.length > 1023 by omega), if_neg hc]

theorem xargs_line (hb : buf.length < 1024) :
    xargs env (fuel + 1) pid buf ⟨newline :: input, f, e, log⟩ =
      xargs_exec env (fun p => xargs env fuel p []) pid (env.args buf)
        ⟨input, f, e, log ++ [.read pid buf.length (some newline)] ++ .nul buf.length :: env.stores⟩ := by
  rw [xargs]
  simp only [if_neg (show ¬ buf.length > 1023 by omega), if_true]

theorem xargs_exit (hb : ¬ buf.length < 1024) : xargs env (fuel + 1) pid buf ⟨c :: input, f, e, log⟩ =
    some ⟨input, f, e, log ++ [.read pid buf.length (some c)]⟩ := by
  exact if_pos (show buf.length > 1023 by omega)

/-- What comes after the last newline. -/
def rest (input : Str) : Str := (input.splitOn newline).getLastD []

theorem rest_cons (h : newline ∉ buf) : rest (buf ++ newline :: input) = rest input := by
  obtain ⟨x, xs, hx⟩ := exists_cons_of_ne_nil (splitOnP_ne_nil (· == newline) input)
  rw [rest, rest, splitOn_line h, show input.splitOn newline = x :: xs from hx, getLastD_cons, getLastD_cons,
    getLastD_cons]

theorem rest_single (h : newline ∉ buf) : rest buf = buf := by
  rw [rest, splitOn_single h]
  rfl

theorem eq_nil_of_rest (hl : lines input = []) (hr : rest input = []) : input = [] := by
  by_cases hn : newline ∈ input
  · obtain ⟨l, r, rfl, h⟩ := eq_append_cons_of_mem hn
    rw [lines_cons h] at hl
    cases hl
  · rwa [rest_single hn] at hr

/-- The lines leave room for their newline, and what comes after them fits. -/
def Short (input : Str) : Prop := (∀ l ∈ lines input, l.length < 1024) ∧ (rest input).length ≤ 1024

theorem short_cons (h : newline ∉ buf) : Short (buf ++ newline :: input) ↔ buf.length < 1024 ∧ Short input := by
  rw [Short, lines_cons h, rest_cons h, forall_mem_cons, and_assoc, Short]

theorem short_single (h : newline ∉ buf) : Short buf ↔ buf.length ≤ 1024 := by
  rw [Short, lines_single h, rest_single h]
  exact and_iff_right nofun

/-- The next byte has room. -/
theorem Short.lt (h : Short (buf ++ c :: input)) (hb : newline ∉ buf) : buf.length < 1024 := by
  by_cases hn : newline ∈ c :: input
  · obtain ⟨a, r, hr, ha⟩ := eq_append_cons_of_mem hn
    rw [hr, ← append_assoc, short_cons (by simp [hb, ha]), length_append] at h
    omega
  · rw [short_single (by simpa [hb] using hn), length_append, length_cons] at h
    omega

theorem not_mem_concat (hb : newline ∉ buf) (hc : c ≠ newline) : newline ∉ buf ++ [c] := by simp [hb, hc.symm]

/-! ### Stores -/

/-- The store is inside of its buffer. -/
def Event.Inside : Event → Prop
  | .read _ m (some _) | .nul m => m < 1024
  | .arg i => i < MAXARG
  | _ => True

theorem inside_stores (h : env.argv.length < MAXARG) : ∀ x ∈ env.stores, x.Inside := by
  have hsize : env.size < 31 := by
    have : env.argv.length < 32 := h
    rw [Env.size]
    omega
  have hindex : env.argIndex < 31 := by
    rw [Env.argIndex]
    split <;> omega
  rw [Env.stores, forall_mem_map]
  show ∀ i ∈ _, i < 32
  simp only [forall_mem_append, forall_mem_cons, forall_mem_map, mem_range]
  refine ⟨⟨fun i hi => ?_, fun i hi => ?_⟩, by omega, by omega, nofun⟩
  · rw [Int.ofNat_eq_natCast]
    omega
  · split at hi
    · exact mem_singleton.mp hi ▸ by decide
    · cases hi

/-- What a process changes until it is gone, with `buf` in its buffer. -/
structure Goes (env : Env) (buf : Str) (w w' : World) : Prop where
  input : w'.input.length ≤ w.input.length
  log : w.log <+: w'.log
  inside : env.argv.length < MAXARG → newline ∉ buf → Short (buf ++ w.input) → (∀ x ∈ w.log, x.Inside) →
    Short w'.input ∧ ∀ x ∈ w'.log, x.Inside

theorem Goes.trans {w₁ : World} (h : Goes env buf w w₁) (h' : Goes env [] w₁ w') : Goes env buf w w' where
  input := h'.input.trans h.input
  log := h.log.trans h'.log
  inside hargv hb hs hw := h'.inside hargv not_mem_nil (h.inside hargv hb hs hw).1 (h.inside hargv hb hs hw).2

theorem xargs_exec_goes (env : Env) (pid : Nat) (args : List Str) {k : Nat → World → Option World}
    (hk : ∀ p w₁, w₁.input.length ≤ w.input.length → ∃ w', k p w₁ = some w' ∧ Goes env [] w₁ w') :
    ∃ w', xargs_exec env k pid args w = some w' ∧ Goes env [] w w' ∧
      .exec (if env.fork w.forks then w.forks + 1 else pid) args ∈ w'.log := by
  have hcall : ∀ o p, Goes env [] w
      ⟨w.input, w.forks + 1, w.execs + 1, w.log ++ [.fork pid o, .exec p args]⟩ := fun o p =>
    ⟨le_rfl, prefix_append .., fun _ _ hs hw => ⟨hs, forall_mem_append.mpr ⟨hw, by simp [Event.Inside]⟩⟩⟩
  rw [xargs_exec]
  split_ifs
  · obtain ⟨w', hw', hg⟩ := hk pid _ (hcall (some (w.forks + 1)) (w.forks + 1)).input
    exact ⟨w', hw', (hcall _ _).trans hg, hg.log.subset (by simp)⟩
  · obtain ⟨w₁, hw₁, hg₁⟩ := hk (w.forks + 1) _ (hcall (some (w.forks + 1)) (w.forks + 1)).input
    obtain ⟨w', hw', hg⟩ := hk pid w₁ hg₁.input
    exact ⟨w', (congrArg (Option.bind · (k pid)) hw₁).trans hw', ((hcall _ _).trans hg₁).trans hg,
      (hg₁.log.trans hg.log).subset (by simp)⟩
  · exact ⟨_, rfl, hcall none pid, by simp⟩
  · obtain ⟨w', hw', hg⟩ := hk pid _ (hcall none pid).input
    exact ⟨w', hw', (hcall _ _).trans hg, hg.log.subset (by simp)⟩

/-- **A process comes to its end**, and if the input is short then all that it stores is inside. -/
theorem xargs_goes (env : Env) (pid : Nat) (buf : Str) (hfuel : w.input.length < fuel) :
    ∃ w', xargs env fuel pid buf w = some w' ∧ Goes env buf w w' ∧ .read pid buf.length w.input.head? ∈ w'.log := by
  induction fuel generalizing pid buf w with
  | zero => cases hfuel
  | succ fuel ih =>
    obtain ⟨_ | ⟨c, input⟩, f, e, log⟩ := w
    · refine ⟨_, rfl, ⟨le_rfl, prefix_append .., fun _ _ _ hw => ⟨?_, ?_⟩⟩, mem_append_right _ (mem_singleton_self _)⟩
      · exact (short_single not_mem_nil).mpr (Nat.zero_le _)
      · exact forall_mem_append.mpr ⟨hw, by simp [Event.Inside]⟩
    · replace hfuel : input.length < fuel := Nat.lt_of_succ_lt_succ hfuel
      by_cases hb : buf.length < 1024
      · rcases eq_or_ne c newline with rfl | hc
        · obtain ⟨w', hw', hg, -⟩ := xargs_exec_goes env pid (env.args buf)
            (w := ⟨input, f, e, log ++ [.read pid buf.length (some newline)] ++ .nul buf.length :: env.stores⟩)
            fun p w₁ h₁ => (ih p [] (h₁.trans_lt hfuel)).imp fun _ h => ⟨h.1, h.2.1⟩
          refine ⟨w', (xargs_line hb).trans hw', ⟨hg.input.trans (Nat.le_succ _), ?_, fun hargv hbuf hs hw => ?_⟩,
            hg.log.subset (by simp)⟩
          · exact ((prefix_append ..).trans (prefix_append ..)).trans hg.log
          · refine hg.inside hargv not_mem_nil ((short_cons hbuf).mp hs).2 ?_
            refine forall_mem_append.mpr ⟨forall_mem_append.mpr ⟨hw, by simpa [Event.Inside] using hb⟩, ?_⟩
            exact forall_mem_cons.mpr ⟨hb, inside_stores hargv⟩
        · obtain ⟨w', hw', hg, -⟩ := ih pid (buf ++ [c]) (w := ⟨input, f, e, log ++ [.read pid buf.length (some c)]⟩) hfuel
          refine ⟨w', (xargs_byte hb hc).trans hw', ⟨hg.input.trans (Nat.le_succ _), (prefix_append ..).trans hg.log,
            fun hargv hbuf hs hw => ?_⟩, hg.log.subset (by simp)⟩
          refine hg.inside hargv (not_mem_concat hbuf hc) (append_cons .. ▸ hs) ?_
          exact forall_mem_append.mpr ⟨hw, by simpa [Event.Inside] using hb⟩
      · exact ⟨_, xargs_exit hb, ⟨Nat.le_succ _, prefix_append .., fun _ hbuf hs _ => absurd (hs.lt hbuf) hb⟩,
          mem_append_right _ (mem_singleton_self _)⟩

theorem goes_of_xargs (h : xargs env fuel pid buf w = some w') (hfuel : w.input.length < fuel) :
    Goes env buf w w' ∧ .read pid buf.length w.input.head? ∈ w'.log := by
  obtain ⟨_, h', hg⟩ := xargs_goes env pid buf hfuel
  obtain rfl := Option.some.inj (h.symm.trans h')
  exact hg

/-- If all calls succeed then the original process comes to every byte. -/
theorem short_of_inside (hfork : ∀ i, env.fork i = true) (hexec : ∀ i, env.exec i = true) (hb : newline ∉ buf)
    (hlen : buf.length ≤ 1024) (h : xargs env fuel 0 buf w = some w') (hin : ∀ x ∈ w'.log, x.Inside) :
    Short (buf ++ w.input) := by
  induction fuel generalizing buf w with
  | zero => cases h
  | succ fuel ih =>
    obtain ⟨_ | ⟨c, input⟩, f, e, log⟩ := w
    · exact (append_nil buf).symm ▸ (short_single hb).mpr hlen
    have hlt : buf.length < 1024 := by
      by_contra hge
      rw [xargs_exit hge] at h
      cases h
      exact hge (hin (.read 0 buf.length (some c)) (by simp))
    rcases eq_or_ne c newline with rfl | hc
    · rw [xargs_line hlt, xargs_exec, if_pos (hfork _), if_pos (hexec _)] at h
      exact (short_cons hb).mpr ⟨hlt, ih not_mem_nil (Nat.zero_le _) h⟩
    · rw [xargs_byte hlt hc] at h
      have hs := ih (not_mem_concat hb hc) (by rw [length_append]; exact hlt) h
      rwa [append_assoc] at hs

theorem main_goes (env : Env) (input : Str) : ∃ w, main env input = some w ∧ Goes env [] ⟨input, 0, 0, []⟩ w := by
  obtain ⟨w, hw, hg, -⟩ := xargs_goes env 0 [] (w := ⟨input, 0, 0, []⟩) (Nat.lt_succ_self _)
  exact ⟨w, hw, hg⟩

theorem short_of_main {argv : List Str} (h : main ⟨argv, fun _ => true, fun _ => true⟩ input = some w)
    (hin : ∀ x ∈ w.log, x.Inside) : Short input :=
  short_of_inside (fun _ => rfl) (fun _ => rfl) not_mem_nil (Nat.zero_le _) h hin

end Loop

/-- **`xargs` stays inside its buffers exactly if the lines have less than 1024 bytes**, and what comes after them has
at most 1024.  Without a name of the program `size` is -1, and so is the index of a store into `arg`. -/
theorem inside_iff_short (argv : List Str) (input : Str) (hargv : argv.length < MAXARG) :
    (∀ fork exec, ∃ w, main ⟨argv, fork, exec⟩ input = some w ∧ ∀ x ∈ w.log, x.Inside) ↔ Short input := by
  constructor
  · intro h
    obtain ⟨w, hw, hin⟩ := h (fun _ => true) fun _ => true
    exact short_of_main hw hin
  · intro hs fork exec
    obtain ⟨w, hw, hg⟩ := main_goes ⟨argv, fork, exec⟩ input
    exact ⟨w, hw, (hg.inside hargv not_mem_nil hs nofun).2⟩

/-- One line. -/
theorem inside_iff_short_hello : ∃ w, main ⟨[[120]], fun _ => true, fun _ => true⟩ [104, 105, 10] = some w ∧
    ∀ x ∈ w.log, x.Inside :=
  (inside_iff_short [[120]] [104, 105, 10] (by decide)).mpr ⟨by decide, by decide⟩ _ _

/-- 1025 letters: `read` stores the last one at `buf + 1024`. -/
theorem letters_outside : ∃ w, main ⟨[[120]], fun _ => true, fun _ => true⟩ (replicate 1025 97) = some w ∧
    ∃ x ∈ w.log, ¬ x.Inside := by
  obtain ⟨w, hw, -⟩ := main_goes ⟨[[120]], fun _ => true, fun _ => true⟩ (replicate 1025 97)
  refine ⟨w, hw, ?_⟩
  by_contra hin
  simp only [not_exists, not_and, not_not] at hin
  have hnl : newline ∉ replicate 1025 (97 : UInt8) := fun h => absurd (eq_of_mem_replicate h) (by decide)
  have hs := (short_single hnl).mp (short_of_main hw hin)
  rw [length_replicate] at hs
  exact absurd hs (by decide)

/-! ### Commands -/

/-- The result of a read of the original process. -/
def Event.result : Event → Option (Option UInt8)
  | .read pid _ c => if pid = 0 then some c else none
  | _ => none

/-- It is not another process that reads a byte. -/
def Event.Alone : Event → Prop
  | .read pid _ (some _) => pid = 0
  | _ => True

/-- A call of `exec`: the process and the arguments. -/
def Event.call : Event → Option (Nat × List Str)
  | .exec pid args => some (pid, args)
  | _ => none

/-- The arguments with which a line is handed on. -/
def command (argv : List Str) (line : Str) : List Str :=
  (if argv.length ≤ 1 then [Env.echo] else argv.tail) ++ [line]

/-- **The command once per line**, if `buf` has been read already and `k` children have been forked. -/
structure OncePerLine (argv : List Str) (k : Nat) (buf input : Str) (log : List Event) : Prop where
  /-- The original process reads the input to its end, -/
  whole : log.filterMap Event.result = input.map some ++ [none]
  /-- no other one reads any of it, -/
  alone : ∀ x ∈ log, x.Alone
  /-- the lines go to `exec` in this order, each at most once, -/
  handed : (log.filterMap Event.call).map Prod.snd <+ (lines (buf ++ input)).map (command argv)
  /-- in a process that has been forked for it, -/
  child : ∀ x ∈ log.filterMap Event.call, [.fork 0 (some x.1), .exec x.1 x.2] <:+: log
  /-- and in a new one for each. -/
  own : (k :: (log.filterMap Event.call).map Prod.fst).Pairwise (· < ·)

/-- From call number `k` on, every `fork` succeeds, and `exec` fails only when nothing is left of the input. -/
def Served (env : Env) (k : Nat) (input : Str) : Prop :=
  ∀ i < (lines input).length, env.argv ≠ [] ∧ env.fork (k + i) = true ∧
    (env.exec (k + i) = false → i + 1 = (lines input).length ∧ rest input = [])

section Commands

variable {env : Env} {fuel k : Nat} {buf input : Str} {c : UInt8} {log : List Event} {w : World} {argv : List Str}

theorem served_cons (h : newline ∉ buf) : Served env k (buf ++ newline :: input) ↔
    (env.argv ≠ [] ∧ env.fork k = true ∧ (env.exec k = false → input = [])) ∧ Served env (k + 1) input := by
  have hnil : 0 + 1 = (lines input).length + 1 ∧ rest input = [] ↔ input = [] := by
    constructor
    · exact fun ⟨hl, hr⟩ => eq_nil_of_rest (length_eq_zero_iff.mp (by omega)) hr
    · rintro rfl
      exact ⟨rfl, rfl⟩
  rw [Served, lines_cons h, rest_cons h, length_cons, Nat.forall_lt_succ_left, hnil, Served]
  simp only [add_zero, Nat.add_right_cancel_iff, add_right_comm k 1, add_assoc k]

theorem args_eq (h : env.argv ≠ []) (line : Str) : env.args line = command env.argv line := by
  obtain ⟨name, first, hargv⟩ := exists_cons_of_ne_nil h
  rw [Env.args, command, Env.size, Env.program_name, hargv]
  cases first with
  | nil => rfl
  | cons a first =>
    rw [length_cons, length_cons, if_neg (by omega), if_neg (by omega), if_neg (by omega)]

/-- The events of a line before `fork`. -/
theorem line_events (env : Env) (m : Nat) :
    (.read 0 m (some newline) :: .nul m :: env.stores).filterMap Event.result = [some newline] ∧
    (.read 0 m (some newline) :: .nul m :: env.stores).filterMap Event.call = [] ∧
    ∀ x ∈ .read 0 m (some newline) :: .nul m :: env.stores, x.Alone := by
  have hstores : ∀ x ∈ env.stores, x.result = none ∧ x.call = none ∧ x.Alone := by
    rw [Env.stores, forall_mem_map]
    exact fun _ _ => ⟨rfl, rfl, trivial⟩
  refine ⟨congrArg (some newline :: ·) ?_, ?_, ?_⟩
  · exact filterMap_eq_nil_iff.mpr (forall_mem_cons.mpr ⟨rfl, fun x hx => (hstores x hx).1⟩)
  · exact filterMap_eq_nil_iff.mpr (forall_mem_cons.mpr ⟨rfl, forall_mem_cons.mpr ⟨rfl, fun x hx => (hstores x hx).2.1⟩⟩)
  · exact forall_mem_cons.mpr ⟨rfl, forall_mem_cons.mpr ⟨trivial, fun x hx => (hstores x hx).2.2⟩⟩

/-- Another byte of the line. -/
theorem OncePerLine.byte (h : OncePerLine argv k (buf ++ [c]) input log) (m : Nat) :
    OncePerLine argv k buf (c :: input) (.read 0 m (some c) :: log) where
  whole := congrArg (some c :: ·) h.whole
  alone := forall_mem_cons.mpr ⟨rfl, h.alone⟩
  handed := append_cons .. ▸ h.handed
  child x hx := (h.child x hx).trans (infix_cons (infix_refl _))
  own := h.own

/-- A line, and a child for it. -/
theorem OncePerLine.line (h : OncePerLine env.argv (k + 1) [] input log) (hb : newline ∉ buf) (hargv : env.argv ≠ [])
    (m : Nat) : OncePerLine env.argv k buf (newline :: input) (.read 0 m (some newline) :: .nul m :: env.stores ++
      ([.fork 0 (some (k + 1)), .exec (k + 1) (env.args buf)] ++ log)) := by
  obtain ⟨h₁, h₂, h₃⟩ := line_events env m
  generalize .read 0 m (some newline) :: .nul m :: env.stores = pre at h₁ h₂ h₃ ⊢
  have hcall : (pre ++ ([Event.fork 0 (some (k + 1)), .exec (k + 1) (env.args buf)] ++ log)).filterMap Event.call =
      (k + 1, env.args buf) :: log.filterMap Event.call := by
    rw [filterMap_append, filterMap_append, h₂]
    rfl
  constructor
  · rw [filterMap_append, filterMap_append, h₁, h.whole]
    rfl
  · exact forall_mem_append.mpr ⟨h₃, forall_mem_append.mpr ⟨by simp [Event.Alone], h.alone⟩⟩
  · rw [hcall, lines_cons hb, map_cons, map_cons, args_eq hargv]
    exact h.handed.cons_cons _
  · rw [hcall]
    refine forall_mem_cons.mpr ⟨⟨pre, log, append_assoc ..⟩, fun x hx => ?_⟩
    exact (h.child x hx).trans ((suffix_append ..).trans (suffix_append ..)).isInfix
  · rw [hcall, map_cons]
    refine pairwise_cons.mpr ⟨forall_mem_cons.mpr ⟨Nat.lt_succ_self k, fun p hp => ?_⟩, h.own⟩
    exact (Nat.lt_succ_self k).trans (rel_of_pairwise_cons h.own hp)

/-- **If every line is served** then the original process reads on to the end. -/
theorem once_of_served (log : List Event) (hb : newline ∉ buf) (hs : Short (buf ++ input)) (hok : Served env k (buf ++ input))
    (hfuel : input.length < fuel) : ∃ f e new,
      xargs env fuel 0 buf ⟨input, k, k, log⟩ = some ⟨[], f, e, log ++ new⟩ ∧ OncePerLine env.argv k buf input new := by
  induction fuel generalizing k buf input log with
  | zero => cases hfuel
  | succ fuel ih =>
    rcases input with - | ⟨c, input⟩
    · exact ⟨k, k, [.read 0 buf.length none], rfl, rfl, by simp [Event.Alone], nil_sublist _, nofun, pairwise_singleton ..⟩
    replace hfuel : input.length < fuel := Nat.lt_of_succ_lt_succ hfuel
    have hlt := hs.lt hb
    rcases eq_or_ne c newline with rfl | hc
    · obtain ⟨⟨hargv, hfork, hexec⟩, hok'⟩ := (served_cons hb).mp hok
      rw [xargs_line hlt, xargs_exec, if_pos hfork]
      dsimp only
      generalize hL : log ++ [Event.read 0 buf.length (some newline)] ++ .nul buf.length :: env.stores ++
        [.fork 0 (some (k + 1)), .exec (k + 1) (env.args buf)] = L
      obtain ⟨f, e, new, hrun, hnew⟩ : ∃ f e new, (if env.exec k = true then xargs env fuel 0 [] ⟨input, k + 1, k + 1, L⟩
          else (xargs env fuel (k + 1) [] ⟨input, k + 1, k + 1, L⟩).bind (xargs env fuel 0 [])) =
            some ⟨[], f, e, L ++ new⟩ ∧ OncePerLine env.argv (k + 1) [] input new := by
        by_cases he : env.exec k = true
        · rw [if_pos he]
          exact ih L not_mem_nil ((short_cons hb).mp hs).2 hok' hfuel
        -- the child finds nothing more to read
        obtain rfl := hexec (by simpa using he)
        cases fuel with
        | zero => cases hfuel
        | succ fuel =>
          rw [if_neg he]
          exact ⟨k + 1, k + 1, [.read (k + 1) 0 none, .read 0 0 none], by simp [xargs], rfl, by simp [Event.Alone],
            nil_sublist _, nofun, pairwise_singleton ..⟩
      refine ⟨f, e, _, ?_, hnew.line hb hargv buf.length⟩
      rw [hrun, ← hL]
      simp
    · obtain ⟨f, e, new, hrun, hnew⟩ := ih (log ++ [.read 0 buf.length (some c)]) (not_mem_concat hb hc)
        (append_cons .. ▸ hs) (append_cons .. ▸ hok) hfuel
      exact ⟨f, e, .read 0 buf.length (some c) :: new, by rw [xargs_byte hlt hc, hrun, append_assoc]; rfl, hnew.byte _⟩

/-- What must not happen: the original process makes room for a command, or a child reads. -/
def Event.Ok : Event → Prop
  | .exec pid args => pid ≠ 0 ∧ args ≠ []
  | x => x.Alone

theorem OncePerLine.ok (h : OncePerLine argv 0 [] input log) : ∀ x ∈ log, x.Ok := by
  intro x hx
  cases x with
  | exec pid args =>
    have hmem : (pid, args) ∈ log.filterMap Event.call := mem_filterMap.mpr ⟨_, hx, rfl⟩
    obtain ⟨l, -, hl⟩ := mem_map.mp (h.handed.subset (mem_map_of_mem hmem))
    refine ⟨(rel_of_pairwise_cons h.own (mem_map_of_mem hmem)).ne', ?_⟩
    rintro rfl
    exact absurd hl (append_ne_nil_of_right_ne_nil _ (cons_ne_nil _ _))
  | _ => exact h.alone _ hx

theorem served_of_ok (hb : newline ∉ buf) (hs : Short (buf ++ input)) (hfuel : input.length < fuel)
    (h : xargs env fuel 0 buf ⟨input, k, k, log⟩ = some w) (hok : ∀ x ∈ w.log, x.Ok) : Served env k (buf ++ input) := by
  induction fuel generalizing k buf input log with
  | zero => cases h
  | succ fuel ih =>
    rcases input with - | ⟨c, input⟩
    · rw [append_nil, Served, lines_single hb]
      exact nofun
    replace hfuel : input.length < fuel := Nat.lt_of_succ_lt_succ hfuel
    have hlt := hs.lt hb
    rcases eq_or_ne c newline with rfl | hc
    · have hs' := ((short_cons hb).mp hs).2
      rw [xargs_line hlt] at h
      obtain ⟨w', hw', -, hexec⟩ := xargs_exec_goes env 0 (env.args buf)
        (w := ⟨input, k, k, log ++ [.read 0 buf.length (some newline)] ++ .nul buf.length :: env.stores⟩)
        fun p w₁ h₁ => (xargs_goes env p [] (h₁.trans_lt hfuel)).imp fun _ h => ⟨h.1, h.2.1⟩
      obtain rfl := Option.some.inj (hw'.symm.trans h)
      obtain ⟨hp, hargs⟩ := hok _ hexec
      have hfork : env.fork k = true := by
        by_contra hf
        exact hp (if_neg hf)
      have hargv : env.argv ≠ [] := fun h0 => hargs (by rw [Env.args, Env.size, h0]; rfl)
      rw [xargs_exec, if_pos hfork] at h
      split at h
      · next he => exact (served_cons hb).mpr ⟨⟨hargv, hfork, by simp [he]⟩, ih not_mem_nil hs' hfuel h⟩
      obtain ⟨w₁, hw₁, hw⟩ := Option.bind_eq_some_iff.mp h
      obtain ⟨hg₁, hread⟩ := goes_of_xargs hw₁ hfuel
      obtain ⟨hg₂, -⟩ := goes_of_xargs hw (hg₁.input.trans_lt hfuel)
      have hnil : input = [] := by
        cases input with
        | nil => rfl
        | cons c input => exact absurd (hok _ (hg₂.log.subset hread)) (Nat.succ_ne_zero k)
      subst hnil
      exact (served_cons hb).mpr ⟨⟨hargv, hfork, fun _ => rfl⟩, nofun⟩
    · rw [xargs_byte hlt hc] at h
      rw [append_cons] at hs ⊢
      exact ih (not_mem_concat hb hc) hs hfuel h

end Commands

end Xv6.Xargs
