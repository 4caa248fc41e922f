/-
Xv6/ShGrammar.lean

The grammar of the shell, and that its parser accepts just that.

A derivation is a value of type `Line`, with the tokens it derives (`toks`) and the tree it
stands for (`tree`).  The parser is a program over tokens here: by `reads_meet`, what it
does with a list of tokens is what it does with the line.

* `line_sound`: what the parser has consumed when it returns is derived from the grammar.
* `Line.complete`: it finds every derivation, provided that what follows cannot belong to it.
* `Line.unique`: there is but one.

All three go by what may follow a `Line`, a `Pipe` and an `Exec`.  The first also says that the
parser comes to an end: the bound on its depth that suffices is linear in the number of
tokens, since each function that calls itself, through others, has consumed one.
-/
import Xv6.Sh

namespace Xv6.Sh

open List Prog

open Sys (O_RDONLY O_WRONLY O_CREATE O_TRUNC)

/-! ### The grammar -/

/-- The three redirections. -/
inductive Kind where
  | input
  | output
  | append
  deriving DecidableEq

namespace Kind

def token : Kind → Token
  | input => .lt
  | output => .gt
  | append => .append

def mode : Kind → UInt32
  | input => O_RDONLY
  | output => O_WRONLY ||| O_CREATE ||| O_TRUNC
  | append => O_WRONLY ||| O_CREATE

def fd : Kind → Nat
  | input => 0
  | output | append => 1

end Kind

/-- redir -> ('<' | '>' | '>>') word -/
structure Redir where
  kind : Kind
  file : Ptr

def Redir.toks (r : Redir) : List Token := [r.kind.token, .word r.file]

mutual

/-- line -> pipe '&'* [';' line] -/
inductive Line where
  | last (p : Pipe) (backs : Nat)
  | seq (p : Pipe) (backs : Nat) (rest : Line)

/-- pipe -> exec ['|' pipe] -/
inductive Pipe where
  | exec (e : Exec)
  | pipe (e : Exec) (rest : Pipe)

/-- exec -> '(' line ')' redir* | redir* (word redir*)*, with at most MAXARGS - 1 words -/
inductive Exec where
  | block (l : Line) (rs : List Redir)
  | simple (rs : List Redir) (args : List (Ptr × List Redir)) (few : args.length < MAXARGS)

end

/-- The tokens of redirections. -/
def redirToks (rs : List Redir) : List Token := rs.flatMap Redir.toks

/-- The tokens of words, each with the redirections behind it. -/
def argToks (args : List (Ptr × List Redir)) : List Token := args.flatMap fun a => .word a.1 :: redirToks a.2

mutual

def Line.toks : Line → List Token
  | .last p n => p.toks ++ replicate n .amp
  | .seq p n rest => p.toks ++ (replicate n .amp ++ .semi :: rest.toks)

def Pipe.toks : Pipe → List Token
  | .exec e => e.toks
  | .pipe e rest => e.toks ++ .bar :: rest.toks

def Exec.toks : Exec → List Token
  | .block l rs => .lpar :: (l.toks ++ .rpar :: redirToks rs)
  | .simple rs args _ => redirToks rs ++ argToks args

end

namespace Cmd

/-- A command with redirections around it, the last one outside. -/
def redirs (cmd : Cmd Ptr) (rs : List Redir) : Cmd Ptr :=
  rs.foldl (fun cmd r => .redir cmd r.file r.kind.mode r.kind.fd) cmd

/-- A command in the background, so many times. -/
def backs (cmd : Cmd Ptr) : Nat → Cmd Ptr
  | 0 => cmd
  | n + 1 => (Cmd.back cmd).backs n

end Cmd

mutual

def Line.tree : Line → Cmd Ptr
  | .last p n => p.tree.backs n
  | .seq p n rest => .list (p.tree.backs n) rest.tree

def Pipe.tree : Pipe → Cmd Ptr
  | .exec e => e.tree
  | .pipe e rest => .pipe e.tree rest.tree

def Exec.tree : Exec → Cmd Ptr
  | .block l rs => l.tree.redirs rs
  | .simple rs args _ => (Cmd.exec (args.map Prod.fst)).redirs (rs ++ args.flatMap Prod.snd)

end

theorem Cmd.addArg_redirs (argv : List Ptr) (rs : List Redir) (w : Ptr) :
    ((Cmd.exec argv).redirs rs).addArg w = (Cmd.exec (argv ++ [w])).redirs rs := by
  induction rs using reverseRecOn with
  | nil => rfl
  | append_singleton rs r ih =>
    simp only [redirs, foldl_append, foldl_cons, foldl_nil] at ih ⊢
    rw [addArg, ih]

/-! ### What comes next -/

/-- The next token, if there is one, starts with one of these symbols. -/
def Next (toks : String) (ts : List Token) : Prop := ts.head?.any (Token.starts (str toks)) = true

section Next

variable {ts : List Token} {t : Token} {toks : String}

theorem next_cons : Next toks (t :: ts) ↔ t.starts (str toks) = true := Iff.rfl

theorem not_next_nil : ¬ Next toks [] := nofun

theorem next_iff {P : Token → Prop} (h : ∀ t : Token, t.starts (str toks) = true ↔ P t) :
    Next toks ts ↔ ∃ t ts', ts = t :: ts' ∧ P t := by
  cases ts with
  | nil => exact iff_of_false nofun nofun
  | cons t ts =>
    rw [next_cons, h]
    constructor
    · exact fun ht => ⟨t, ts, rfl, ht⟩
    · rintro ⟨_, _, ⟨⟩, ht⟩
      exact ht

theorem next_redir : Next "<>" ts ↔ ∃ k : Kind, ∃ ts', ts = k.token :: ts' := by
  rw [next_iff (P := fun t => ∃ k : Kind, t = k.token)]
  · constructor
    · rintro ⟨_, ts', rfl, k, rfl⟩
      exact ⟨k, ts', rfl⟩
    · rintro ⟨k, ts', rfl⟩
      exact ⟨_, ts', rfl, k, rfl⟩
  · intro t
    cases t with
    | lt => exact iff_of_true rfl ⟨.input, rfl⟩
    | gt => exact iff_of_true rfl ⟨.output, rfl⟩
    | append => exact iff_of_true rfl ⟨.append, rfl⟩
    | _ => exact iff_of_false nofun (by rintro ⟨_ | _ | _, ⟨⟩⟩)

/-- One symbol. -/
theorem next_single {x : Token} (h : ∀ t : Token, t.starts (str toks) = true ↔ t = x) :
    Next toks ts ↔ ∃ ts', ts = x :: ts' := by
  rw [next_iff h]
  constructor
  · rintro ⟨_, ts', rfl, rfl⟩
    exact ⟨ts', rfl⟩
  · rintro ⟨ts', rfl⟩
    exact ⟨x, ts', rfl, rfl⟩

theorem starts_iff (t : Token) : (t.starts (str "&") = true ↔ t = .amp) ∧ (t.starts (str ";") = true ↔ t = .semi) ∧
    (t.starts (str "|") = true ↔ t = .bar) ∧ (t.starts (str "(") = true ↔ t = .lpar) ∧
    (t.starts (str ")") = true ↔ t = .rpar) := by
  cases t <;> refine ⟨?_, ?_, ?_, ?_, ?_⟩ <;> first | exact iff_of_true rfl rfl | exact iff_of_false nofun nofun

theorem next_amp : Next "&" ts ↔ ∃ ts', ts = .amp :: ts' := next_single fun t => (starts_iff t).1

theorem next_semi : Next ";" ts ↔ ∃ ts', ts = .semi :: ts' := next_single fun t => (starts_iff t).2.1

theorem next_bar : Next "|" ts ↔ ∃ ts', ts = .bar :: ts' := next_single fun t => (starts_iff t).2.2.1

theorem next_lpar : Next "(" ts ↔ ∃ ts', ts = .lpar :: ts' := next_single fun t => (starts_iff t).2.2.2.1

theorem next_rpar : Next ")" ts ↔ ∃ ts', ts = .rpar :: ts' := next_single fun t => (starts_iff t).2.2.2.2

end Next

/-! ### Peeking and taking -/

section Steps

variable {α : Type} {pan : Prop} {ts : List Token} {Q : α → List Token → Prop} {k : UInt8 × Ptr → ShProg α}
  {p₁ p₂ : ShProg α} {toks : String}

theorem reads_mono (pan : Prop) : Prog.Spec.Mono (reads pan) := by
  intro o ts Q Q' h hQ
  cases o with
  | peek toks => exact ⟨hQ.1, h _ _ hQ.2⟩
  | gettoken =>
    cases ts with
    | nil => exact fun w => h _ _ (hQ w)
    | cons t ts =>
      cases t with
      | word w => exact h _ _ hQ
      | _ => exact fun w => h _ _ (hQ w)
  | panic | stop => exact hQ

theorem wp_panic (msg : String) : (panic msg : ShProg α).wp (reads pan) ts Q ↔ pan := Iff.rfl

/-- What follows a part of a program starts from what holds after it. -/
theorem reads_seq {β : Type} {p : ShProg β} {f : β → ShProg α} {R : β → List Token → Prop} (h : p.wp (reads pan) ts R)
    (hf : ∀ b ts', R b ts' → (f b).wp (reads pan) ts' Q) : (p >>= f).wp (reads pan) ts Q := by
  rw [wp_bind]
  exact wp_mono (reads_mono pan) h hf

section

variable (hs : (str toks).all (· ∈ symbols) = true)

include hs

/-- `peek` tells whether one of its symbols comes next. -/
theorem wp_peek (hpos : Next toks ts → p₁.wp (reads pan) ts Q) (hneg : ¬ Next toks ts → p₂.wp (reads pan) ts Q) :
    (peek toks >>= fun b => if b = true then p₁ else p₂).wp (reads pan) ts Q := by
  refine ⟨fun c hc => of_decide_eq_true (all_eq_true.mp hs c hc), ?_⟩
  show (if ts.head?.any (Token.starts (str toks)) = true then p₁ else p₂).wp (reads pan) ts Q
  split
  · exact hpos ‹_›
  · exact hneg ‹_›

theorem wp_peek_pos (hn : Next toks ts) (h : p₁.wp (reads pan) ts Q) :
    (peek toks >>= fun b => if b = true then p₁ else p₂).wp (reads pan) ts Q :=
  wp_peek hs (fun _ => h) (absurd hn)

theorem wp_peek_neg (hn : ¬ Next toks ts) (h : p₂.wp (reads pan) ts Q) :
    (peek toks >>= fun b => if b = true then p₁ else p₂).wp (reads pan) ts Q :=
  wp_peek hs (fun hn' => absurd hn' hn) fun _ => h

end

variable {t : Token}

/-- `gettoken` takes a symbol. -/
theorem wp_gettoken_sym (ht : ∀ w, t ≠ .word w)
    (h : ∀ w, (k (t.ret, w)).wp (reads pan) ts Q) : (gettoken >>= k).wp (reads pan) (t :: ts) Q := by
  cases t with
  | word w => exact absurd rfl (ht w)
  | _ => exact h

theorem wp_gettoken_word {w : Ptr} (h : (k (tok 'a', w)).wp (reads pan) ts Q) :
    (gettoken >>= k).wp (reads pan) (.word w :: ts) Q := by
  exact h

theorem wp_gettoken_nil (h : ∀ w, (k (0, w)).wp (reads pan) [] Q) : (gettoken >>= k).wp (reads pan) [] Q := by
  exact h

/-- A symbol is seen and taken. -/
theorem wp_take (hs : (str toks).all (· ∈ symbols) = true) (hn : t.starts (str toks) = true)
    (ht : ∀ w, t ≠ .word w) (h : ∀ w, (k (t.ret, w)).wp (reads pan) ts Q) :
    (peek toks >>= fun b => if b = true then gettoken >>= k else p₂).wp (reads pan) (t :: ts) Q :=
  wp_peek_pos hs hn (wp_gettoken_sym ht h)

end Steps

theorem Token.ret_ne {t : Token} (ht : ∀ w, t ≠ .word w) : t.ret ≠ tok 'a' ∧ t.ret ≠ 0 := by
  cases t with
  | word w => exact absurd rfl (ht w)
  | _ => exact ⟨by decide, by decide⟩

/-! ### Redirections -/

section Redirs

variable {pan : Prop} {ts rest : List Token} {Q : Cmd Ptr → List Token → Prop} {cmd : Cmd Ptr} {fuel : Nat}

theorem redirToks_cons (r : Redir) (rs : List Redir) :
    redirToks (r :: rs) = r.kind.token :: .word r.file :: redirToks rs := rfl

theorem wp_redirs_nil (hn : ¬ Next "<>" ts) (h : Q cmd ts) : (parseredirs (fuel + 1) cmd).wp (reads pan) ts Q := by
  exact wp_peek_neg (by decide) hn h

theorem wp_redirs_cons (r : Redir) (h : (parseredirs fuel (.redir cmd r.file r.kind.mode r.kind.fd)).wp (reads pan) ts Q) :
    (parseredirs (fuel + 1) cmd).wp (reads pan) (r.kind.token :: .word r.file :: ts) Q := by
  obtain ⟨k, w⟩ := r
  refine wp_take (by decide) (by cases k <;> rfl) (by cases k <;> exact nofun) fun _ => ?_
  refine wp_gettoken_word ?_
  cases k with
  | input | output | append => exact h

/-- A redirection without a file. -/
theorem wp_redirs_missing (k : Kind) (hts : ∀ w ts', ts ≠ .word w :: ts') (hpan : pan) :
    (parseredirs (fuel + 1) cmd).wp (reads pan) (k.token :: ts) Q := by
  refine wp_take (by decide) (by cases k <;> rfl) (by cases k <;> exact nofun) fun _ => ?_
  cases ts with
  | nil =>
    refine wp_gettoken_nil fun w => ?_
    exact (wp_panic _).mpr hpan
  | cons t ts =>
    have ht : ∀ w, t ≠ .word w := fun w h => hts w ts (by rw [h])
    refine wp_gettoken_sym ht fun w => ?_
    rw [if_pos (Token.ret_ne ht).1]
    exact (wp_panic _).mpr hpan

/-- **`parseredirs` comes to an end**, and what it has consumed are redirections. -/
theorem redirs_sound (cmd : Cmd Ptr) (hfuel : ts.length < fuel) :
    (parseredirs fuel cmd).wp (reads True) ts fun c m => ∃ rs, ts = redirToks rs ++ m ∧ c = cmd.redirs rs := by
  induction fuel generalizing ts cmd with
  | zero => exact absurd hfuel (Nat.not_lt_zero _)
  | succ fuel ih =>
    by_cases hn : Next "<>" ts
    · obtain ⟨k, ts, rfl⟩ := next_redir.mp hn
      by_cases hw : ∃ w ts', ts = .word w :: ts'
      · obtain ⟨w, ts, rfl⟩ := hw
        refine wp_redirs_cons ⟨k, w⟩ (wp_mono (reads_mono _) (ih _ (by simp at hfuel; omega)) ?_)
        rintro c m ⟨rs, rfl, rfl⟩
        exact ⟨⟨k, w⟩ :: rs, rfl, rfl⟩
      · push Not at hw
        exact wp_redirs_missing k hw trivial
    · exact wp_redirs_nil hn ⟨[], rfl, rfl⟩

/-- **`parseredirs` finds all of them.** -/
theorem redirs_complete (cmd : Cmd Ptr) (rs : List Redir) (hrest : ¬ Next "<>" rest)
    (hfuel : (redirToks rs ++ rest).length < fuel) :
    (parseredirs fuel cmd).wp (reads pan) (redirToks rs ++ rest) fun c m => c = cmd.redirs rs ∧ m = rest := by
  induction rs generalizing fuel cmd with
  | nil =>
    obtain ⟨fuel, rfl⟩ := fuel_succ hfuel
    exact wp_redirs_nil hrest ⟨rfl, rfl⟩
  | cons r rs ih =>
    obtain ⟨fuel, rfl⟩ := fuel_succ hfuel
    rw [redirToks_cons] at hfuel ⊢
    exact wp_redirs_cons r (ih _ (by simp at hfuel ⊢; omega))

/-- **There is but one way to read them.** -/
theorem redirs_unique {rs rs' : List Redir} {rest' : List Token} (h : redirToks rs ++ rest = redirToks rs' ++ rest')
    (hrest : ¬ Next "<>" rest) (hrest' : ¬ Next "<>" rest') : rs = rs' ∧ rest = rest' := by
  induction rs generalizing rs' with
  | nil =>
    cases rs' with
    | nil => exact ⟨rfl, h⟩
    | cons r rs' => exact absurd (next_redir.mpr ⟨_, _, h⟩) hrest
  | cons r rs ih =>
    cases rs' with
    | nil => exact absurd (next_redir.mpr ⟨_, _, h.symm⟩) hrest'
    | cons r' rs' =>
      obtain ⟨k, w⟩ := r
      obtain ⟨k', w'⟩ := r'
      obtain ⟨hk, hrest₁⟩ := cons.inj h
      obtain ⟨hw, hrest₂⟩ := cons.inj hrest₁
      obtain rfl : k = k' := by cases k <;> cases k' <;> first | rfl | cases hk
      obtain rfl : w = w' := Token.word.inj hw
      obtain ⟨rfl, hrest₃⟩ := ih hrest₂
      exact ⟨rfl, hrest₃⟩

end Redirs

/-! ### Words -/

section Args

variable {pan : Prop} {ts rest : List Token} {Q : Cmd Ptr → List Token → Prop} {ret : Cmd Ptr} {fuel argc : Nat}

/-- What may follow an `Exec`. -/
def EndsExec (ts : List Token) : Prop := ts = [] ∨ Next "|)&;" ts

variable {t : Token}

theorem next_ends : Next "|)&;" (t :: ts) ↔ t = .bar ∨ t = .rpar ∨ t = .amp ∨ t = .semi := by
  cases t <;> first | exact iff_of_true rfl (by simp) | exact iff_of_false nofun (by simp)

theorem EndsExec.not_redir (h : EndsExec ts) : ¬ Next "<>" ts := by
  rcases h with rfl | h
  · exact not_next_nil
  intro hn
  obtain ⟨k, ts', rfl⟩ := next_redir.mp hn
  rw [next_ends] at h
  cases k <;> simp [Kind.token] at h

theorem argToks_cons (w : Ptr) (rs : List Redir) (args : List (Ptr × List Redir)) :
    argToks ((w, rs) :: args) = .word w :: (redirToks rs ++ argToks args) := by
  simp [argToks]

/-- What follows the redirections of a word. -/
theorem not_redir_argToks (args : List (Ptr × List Redir)) (hrest : EndsExec rest) : ¬ Next "<>" (argToks args ++ rest) := by
  cases args with
  | nil => exact hrest.not_redir
  | cons a args => exact nofun

theorem wp_args_end (h : EndsExec ts) (hQ : Q ret ts) : (parseargs (fuel + 1) ret argc).wp (reads pan) ts Q := by
  rcases h with rfl | h
  · refine wp_peek_neg (by decide) not_next_nil (wp_gettoken_nil fun w => ?_)
    exact hQ
  · exact wp_peek_pos (by decide) h hQ

theorem wp_args_cons {w : Ptr} (hmany : MAXARGS ≤ argc + 1 → pan)
    (h : argc + 1 < MAXARGS → (parseredirs fuel (ret.addArg w)).wp (reads pan) ts fun ret m =>
      (parseargs fuel ret (argc + 1)).wp (reads pan) m Q) :
    (parseargs (fuel + 1) ret argc).wp (reads pan) (.word w :: ts) Q := by
  refine wp_peek_neg (by decide) (by rw [next_ends]; simp) (wp_gettoken_word ?_)
  rw [if_neg (by decide : ¬ tok 'a' = 0), if_neg (by simp)]
  split
  · next hle => exact (wp_panic _).mpr (hmany hle)
  · next hlt =>
      rw [wp_bind]
      exact h (Nat.not_le.mp hlt)

theorem wp_args_syntax (ht : ∀ w, t ≠ .word w) (hend : ¬ EndsExec (t :: ts)) (hpan : pan) :
    (parseargs (fuel + 1) ret argc).wp (reads pan) (t :: ts) Q := by
  refine wp_peek_neg (by decide) (fun h => hend (.inr h)) (wp_gettoken_sym ht fun w => ?_)
  rw [if_neg (Token.ret_ne ht).2, if_pos (Token.ret_ne ht).1]
  exact (wp_panic _).mpr hpan

/-- The words so far, and the redirections around them. -/
theorem redirs_append (cmd : Cmd Ptr) (rs rs' : List Redir) : (cmd.redirs rs).redirs rs' = cmd.redirs (rs ++ rs') := by
  simp [Cmd.redirs]

/-- **The loop of `parseexec`**: what it has consumed are words with redirections, not too many of them. -/
theorem args_sound (argv : List Ptr) (rs : List Redir) (hfuel : ts.length < fuel) (hargc : argv.length < MAXARGS) :
    (parseargs fuel ((Cmd.exec argv).redirs rs) argv.length).wp (reads True) ts fun c m =>
      ∃ args, ts = argToks args ++ m ∧ argv.length + args.length < MAXARGS ∧
        c = (Cmd.exec (argv ++ args.map Prod.fst)).redirs (rs ++ args.flatMap Prod.snd) := by
  induction fuel generalizing ts argv rs with
  | zero => exact absurd hfuel (Nat.not_lt_zero _)
  | succ fuel ih =>
    by_cases hend : EndsExec ts
    · exact wp_args_end hend ⟨[], rfl, hargc, by simp⟩
    cases ts with
    | nil => exact absurd (.inl rfl) hend
    | cons t ts =>
      by_cases hw : ∃ w, t = .word w
      · obtain ⟨w, rfl⟩ := hw
        refine wp_args_cons (fun _ => trivial) fun hlt => ?_
        rw [Cmd.addArg_redirs]
        have hlen : ts.length < fuel := by simpa using hfuel
        refine wp_mono (reads_mono _) (redirs_sound _ hlen) ?_
        rintro _ m ⟨rs', rfl, rfl⟩
        rw [redirs_append]
        have hm : m.length < fuel := by
          rw [length_append] at hlen
          omega
        have hlen' : (argv ++ [w]).length = argv.length + 1 := by simp
        have hih := ih (argv ++ [w]) (rs ++ rs') hm (by rw [hlen']; exact hlt)
        rw [hlen'] at hih
        refine wp_mono (reads_mono _) hih ?_
        rintro _ m' ⟨args, rfl, hfew, rfl⟩
        refine ⟨(w, rs') :: args, ?_, ?_, ?_⟩
        · rw [argToks_cons]
          simp
        · simp only [length_cons]
          omega
        · simp
      · push Not at hw
        exact wp_args_syntax hw hend trivial

/-- **It finds all of them.** -/
theorem args_complete (argv : List Ptr) (rs : List Redir) (args : List (Ptr × List Redir))
    (hfew : argv.length + args.length < MAXARGS) (hrest : EndsExec rest) (hfuel : (argToks args ++ rest).length < fuel) :
    (parseargs fuel ((Cmd.exec argv).redirs rs) argv.length).wp (reads pan) (argToks args ++ rest) fun c m =>
      c = (Cmd.exec (argv ++ args.map Prod.fst)).redirs (rs ++ args.flatMap Prod.snd) ∧ m = rest := by
  induction args generalizing fuel argv rs with
  | nil =>
    obtain ⟨fuel, rfl⟩ := fuel_succ hfuel
    exact wp_args_end hrest ⟨by simp, rfl⟩
  | cons a args ih =>
    obtain ⟨w, rs'⟩ := a
    obtain ⟨fuel, rfl⟩ := fuel_succ hfuel
    rw [argToks_cons, cons_append, append_assoc] at hfuel ⊢
    rw [length_cons] at hfew
    have hlen : (redirToks rs' ++ (argToks args ++ rest)).length < fuel := by simpa using hfuel
    refine wp_args_cons (fun hle => by omega) fun _ => ?_
    rw [Cmd.addArg_redirs]
    refine wp_mono (reads_mono _) (redirs_complete _ rs' (not_redir_argToks args hrest) hlen) ?_
    rintro _ _ ⟨rfl, rfl⟩
    rw [redirs_append]
    have hlen' : (argv ++ [w]).length = argv.length + 1 := by simp
    have hm : (argToks args ++ rest).length < fuel := by
      rw [length_append] at hlen
      omega
    have hih := ih (argv ++ [w]) (rs ++ rs') (by rw [hlen']; omega) hm
    rw [hlen'] at hih
    refine wp_mono (reads_mono _) hih ?_
    rintro _ _ ⟨rfl, rfl⟩
    exact ⟨by simp, rfl⟩

theorem args_unique {args args' : List (Ptr × List Redir)} {rest' : List Token}
    (h : argToks args ++ rest = argToks args' ++ rest') (hrest : EndsExec rest) (hrest' : EndsExec rest') :
    args = args' ∧ rest = rest' := by
  have hword : ∀ {w : Ptr} {ts : List Token}, ¬ EndsExec (.word w :: ts) := by
    rintro w ts (h | h)
    · cases h
    · cases h
  induction args generalizing args' with
  | nil =>
    cases args' with
    | nil => exact ⟨rfl, h⟩
    | cons a args' =>
      rw [show rest = _ from h] at hrest
      exact absurd hrest hword
  | cons a args ih =>
    cases args' with
    | nil =>
      rw [show rest' = _ from h.symm] at hrest'
      exact absurd hrest' hword
    | cons a' args' =>
      obtain ⟨w, rs⟩ := a
      obtain ⟨w', rs'⟩ := a'
      rw [argToks_cons, argToks_cons, cons_append, cons_append] at h
      obtain ⟨hw, htail⟩ := cons.inj h
      obtain rfl : w = w' := Token.word.inj hw
      rw [append_assoc, append_assoc] at htail
      obtain ⟨rfl, hargs⟩ := redirs_unique htail (not_redir_argToks args hrest) (not_redir_argToks args' hrest')
      obtain ⟨rfl, heq⟩ := ih hargs
      exact ⟨rfl, heq⟩

end Args

/-! ### Background -/

section Backs

variable {pan : Prop} {ts rest : List Token} {cmd : Cmd Ptr} {fuel : Nat}

theorem backs_sound (cmd : Cmd Ptr) (hfuel : ts.length < fuel) :
    (parsebacks fuel cmd).wp (reads True) ts fun c m => ∃ n, ts = replicate n .amp ++ m ∧ c = cmd.backs n := by
  induction fuel generalizing ts cmd with
  | zero => exact absurd hfuel (Nat.not_lt_zero _)
  | succ fuel ih =>
    by_cases hn : Next "&" ts
    · obtain ⟨ts, rfl⟩ := next_amp.mp hn
      refine wp_take (by decide) rfl nofun fun _ => ?_
      refine wp_mono (reads_mono _) (ih _ (by simpa using hfuel)) ?_
      rintro _ m ⟨n, rfl, rfl⟩
      exact ⟨n + 1, rfl, rfl⟩
    · exact wp_peek_neg (by decide) hn ⟨0, rfl, rfl⟩

theorem backs_complete (cmd : Cmd Ptr) (n : Nat) (hrest : ¬ Next "&" rest)
    (hfuel : (replicate n Token.amp ++ rest).length < fuel) :
    (parsebacks fuel cmd).wp (reads pan) (replicate n .amp ++ rest) fun c m => c = cmd.backs n ∧ m = rest := by
  induction n generalizing fuel cmd with
  | zero =>
    obtain ⟨fuel, rfl⟩ := fuel_succ hfuel
    exact wp_peek_neg (by decide) hrest ⟨rfl, rfl⟩
  | succ n ih =>
    obtain ⟨fuel, rfl⟩ := fuel_succ hfuel
    refine wp_take (by decide) rfl nofun fun _ => ?_
    exact ih _ (by simpa [replicate_succ] using hfuel)

theorem backs_unique {n n' : Nat} {rest' : List Token}
    (h : replicate n Token.amp ++ rest = replicate n' .amp ++ rest') (hrest : ¬ Next "&" rest)
    (hrest' : ¬ Next "&" rest') : n = n' ∧ rest = rest' := by
  induction n generalizing n' with
  | zero =>
    cases n' with
    | zero => exact ⟨rfl, h⟩
    | succ n' => exact absurd (next_amp.mpr ⟨_, h⟩) hrest
  | succ n ih =>
    cases n' with
    | zero => exact absurd (next_amp.mpr ⟨_, h.symm⟩) hrest'
    | succ n' =>
      obtain ⟨rfl, heq⟩ := ih (cons.inj h).2
      exact ⟨rfl, heq⟩

end Backs

/-! ### The parser comes to an end, and what it has consumed is derived -/

section Sound

variable {ts : List Token}

/-- `parseline` on these tokens. -/
def LineSound (ts : List Token) : Prop :=
  ∀ fuel, 4 * ts.length + 4 ≤ fuel →
    (parseline fuel).wp (reads True) ts fun c m => ∃ l : Line, ts = l.toks ++ m ∧ c = l.tree

section

variable (ih : ∀ ts' : List Token, ts'.length < ts.length → LineSound ts')

include ih

theorem block_sound (hn : Next "(" ts) (fuel : Nat) (hfuel : 4 * ts.length + 1 ≤ fuel) :
    (parseblock fuel).wp (reads True) ts fun c m => ∃ e : Exec, ts = e.toks ++ m ∧ c = e.tree := by
  obtain ⟨ts, rfl⟩ := next_lpar.mp hn
  obtain ⟨fuel, rfl⟩ := fuel_succ hfuel
  rw [length_cons] at hfuel
  refine wp_take (by decide) rfl nofun fun _ => ?_
  apply reads_seq (ih ts (Nat.lt_succ_self _) fuel (by omega))
  rintro _ m ⟨l, rfl, rfl⟩
  by_cases hr : Next ")" m
  · obtain ⟨m, rfl⟩ := next_rpar.mp hr
    refine wp_take (by decide) rfl nofun fun _ => ?_
    refine wp_mono (reads_mono _) (redirs_sound _ (by simp at hfuel; omega)) ?_
    rintro _ m' ⟨rs, rfl, rfl⟩
    exact ⟨.block l rs, by simp [Exec.toks], rfl⟩
  · exact wp_peek_neg (by decide) hr trivial

theorem exec_sound (fuel : Nat) (hfuel : 4 * ts.length + 2 ≤ fuel) :
    (parseexec fuel).wp (reads True) ts fun c m => ∃ e : Exec, ts = e.toks ++ m ∧ c = e.tree := by
  obtain ⟨fuel, rfl⟩ := fuel_succ hfuel
  by_cases hn : Next "(" ts
  · exact wp_peek_pos (by decide) hn (block_sound ih hn fuel (by omega))
  refine wp_peek_neg (by decide) hn ?_
  apply reads_seq (redirs_sound _ (by omega))
  rintro _ m ⟨rs, rfl, rfl⟩
  rw [length_append] at hfuel
  refine wp_mono (reads_mono _) (args_sound [] rs (by omega) (by decide)) ?_
  rintro _ m' ⟨args, rfl, hfew, rfl⟩
  exact ⟨.simple rs args (by simpa using hfew), by simp [Exec.toks], rfl⟩

theorem pipe_sound (fuel : Nat) (hfuel : 4 * ts.length + 3 ≤ fuel) :
    (parsepipe fuel).wp (reads True) ts fun c m => ∃ p : Pipe, ts = p.toks ++ m ∧ c = p.tree := by
  induction fuel generalizing ts with
  | zero => omega
  | succ fuel ihf =>
    apply reads_seq (exec_sound ih fuel (by omega))
    rintro _ m ⟨e, rfl, rfl⟩
    by_cases hn : Next "|" m
    · obtain ⟨m, rfl⟩ := next_bar.mp hn
      have hlen : m.length < (e.toks ++ .bar :: m).length := by
        simp
        omega
      refine wp_take (by decide) rfl nofun fun _ => ?_
      apply reads_seq (ihf (fun ts' h => ih ts' (h.trans hlen)) (by omega))
      rintro _ m' ⟨p, rfl, rfl⟩
      exact ⟨.pipe e p, by simp [Pipe.toks], rfl⟩
    · exact wp_peek_neg (by decide) hn ⟨.exec e, rfl, rfl⟩

end

/-- **`parseline` is sound.**  The induction is on the number of tokens. -/
theorem line_sound (ts : List Token) : LineSound ts := by
  induction hlen : ts.length using Nat.strong_induction_on generalizing ts with
  | _ n ih =>
    have ih' : ∀ ts' : List Token, ts'.length < ts.length → LineSound ts' :=
      fun ts' h => ih ts'.length (hlen ▸ h) ts' rfl
    intro fuel hfuel
    obtain ⟨fuel, rfl⟩ := fuel_succ hfuel
    apply reads_seq (pipe_sound ih' fuel (by omega))
    rintro _ m ⟨p, rfl, rfl⟩
    apply reads_seq (backs_sound _ (by rw [length_append] at hfuel; omega))
    rintro _ m' ⟨k, rfl, rfl⟩
    by_cases hn : Next ";" m'
    · obtain ⟨m', rfl⟩ := next_semi.mp hn
      refine wp_take (by decide) rfl nofun fun _ => ?_
      apply reads_seq (ih' m' (by simp; omega) fuel (by simp at hfuel; omega))
      rintro _ m'' ⟨l, rfl, rfl⟩
      exact ⟨.seq p k l, by simp [Line.toks], rfl⟩
    · exact wp_peek_neg (by decide) hn ⟨.last p k, by simp [Line.toks], rfl⟩

end Sound

/-! ### Every derivation is found, and there is but one -/

/-- What may follow a `Line`. -/
def EndsLine (ts : List Token) : Prop := ts = [] ∨ Next ")" ts

/-- What may follow a `Pipe`. -/
def EndsPipe (ts : List Token) : Prop := EndsLine ts ∨ Next "&" ts ∨ Next ";" ts

section Ends

variable {ts : List Token}

theorem EndsPipe.endsExec (h : EndsPipe ts) : EndsExec ts := by
  rcases h with (rfl | h) | h | h
  · exact .inl rfl
  · obtain ⟨ts, rfl⟩ := next_rpar.mp h
    exact .inr rfl
  · obtain ⟨ts, rfl⟩ := next_amp.mp h
    exact .inr rfl
  · obtain ⟨ts, rfl⟩ := next_semi.mp h
    exact .inr rfl

theorem EndsPipe.not_bar (h : EndsPipe ts) : ¬ Next "|" ts := by
  intro hn
  obtain ⟨ts, rfl⟩ := next_bar.mp hn
  rcases h with (h | h) | h | h <;> cases h

theorem endsExec_bar : EndsExec (.bar :: ts) := .inr rfl

theorem EndsLine.not_amp (h : EndsLine ts) : ¬ Next "&" ts := by
  intro hn
  obtain ⟨ts, rfl⟩ := next_amp.mp hn
  rcases h with h | h <;> cases h

theorem EndsLine.not_semi (h : EndsLine ts) : ¬ Next ";" ts := by
  intro hn
  obtain ⟨ts, rfl⟩ := next_semi.mp hn
  rcases h with h | h <;> cases h

theorem endsPipe_backs (n : Nat) (h : EndsPipe ts) : EndsPipe (replicate n .amp ++ ts) := by
  cases n with
  | zero => exact h
  | succ n => exact .inr (.inl rfl)

theorem endsPipe_semi : EndsPipe (.semi :: ts) := .inr (.inr rfl)

theorem not_amp_semi : ¬ Next "&" (.semi :: ts) := nofun

/-- A simple command does not start with a parenthesis. -/
theorem not_lpar_simple (rs : List Redir) (args : List (Ptr × List Redir)) (h : EndsExec ts) :
    ¬ Next "(" (redirToks rs ++ (argToks args ++ ts)) := by
  intro hn
  obtain ⟨ts', heq⟩ := next_lpar.mp hn
  cases rs with
  | cons r rs =>
    obtain ⟨k, w⟩ := r
    cases k <;> cases heq
  | nil =>
    cases args with
    | cons a args => cases heq
    | nil =>
      rw [show ts = _ from heq] at h
      rcases h with h | h <;> cases h

end Ends

section Complete

variable {pan : Prop} {rest : List Token} {fuel : Nat}

mutual

/-- **`parseline` is complete.**  The induction is on the derivation. -/
theorem Line.complete : (l : Line) → ∀ {rest : List Token} {fuel : Nat}, EndsLine rest →
    4 * (l.toks ++ rest).length + 4 ≤ fuel →
    (parseline fuel).wp (reads pan) (l.toks ++ rest) fun c m => c = l.tree ∧ m = rest
  | .last p n, rest, fuel, hrest, hfuel => by
    obtain ⟨fuel, rfl⟩ := fuel_succ hfuel
    rw [Line.toks, append_assoc] at hfuel ⊢
    apply reads_seq (p.complete (endsPipe_backs n (.inl hrest)) (by omega))
    rintro _ _ ⟨rfl, rfl⟩
    apply reads_seq (backs_complete _ n hrest.not_amp (by rw [length_append] at hfuel; omega))
    rintro _ _ ⟨rfl, rfl⟩
    exact wp_peek_neg (by decide) hrest.not_semi ⟨rfl, rfl⟩
  | .seq p n l, rest, fuel, hrest, hfuel => by
    obtain ⟨fuel, rfl⟩ := fuel_succ hfuel
    rw [Line.toks, append_assoc, append_assoc, cons_append] at hfuel ⊢
    apply reads_seq (p.complete (endsPipe_backs n endsPipe_semi) (by omega))
    rintro _ _ ⟨rfl, rfl⟩
    apply reads_seq (backs_complete _ n not_amp_semi (by rw [length_append] at hfuel; omega))
    rintro _ _ ⟨rfl, rfl⟩
    refine wp_take (by decide) rfl nofun fun _ => ?_
    apply reads_seq (l.complete hrest (by simp at hfuel ⊢; omega))
    rintro _ _ ⟨rfl, rfl⟩
    exact ⟨rfl, rfl⟩

theorem Pipe.complete : (p : Pipe) → ∀ {rest : List Token} {fuel : Nat}, EndsPipe rest →
    4 * (p.toks ++ rest).length + 3 ≤ fuel →
    (parsepipe fuel).wp (reads pan) (p.toks ++ rest) fun c m => c = p.tree ∧ m = rest
  | .exec e, rest, fuel, hrest, hfuel => by
    obtain ⟨fuel, rfl⟩ := fuel_succ hfuel
    rw [Pipe.toks] at hfuel ⊢
    apply reads_seq (e.complete hrest.endsExec (by omega))
    rintro _ _ ⟨rfl, rfl⟩
    exact wp_peek_neg (by decide) hrest.not_bar ⟨rfl, rfl⟩
  | .pipe e p, rest, fuel, hrest, hfuel => by
    obtain ⟨fuel, rfl⟩ := fuel_succ hfuel
    rw [Pipe.toks, append_assoc, cons_append] at hfuel ⊢
    apply reads_seq (e.complete endsExec_bar (by omega))
    rintro _ _ ⟨rfl, rfl⟩
    refine wp_take (by decide) rfl nofun fun _ => ?_
    apply reads_seq (p.complete hrest (by simp at hfuel ⊢; omega))
    rintro _ _ ⟨rfl, rfl⟩
    exact ⟨rfl, rfl⟩

theorem Exec.complete : (e : Exec) → ∀ {rest : List Token} {fuel : Nat}, EndsExec rest →
    4 * (e.toks ++ rest).length + 2 ≤ fuel →
    (parseexec fuel).wp (reads pan) (e.toks ++ rest) fun c m => c = e.tree ∧ m = rest
  | .block l rs, rest, fuel, hrest, hfuel => by
    obtain ⟨fuel, rfl⟩ : ∃ f, fuel = f + 2 := ⟨fuel - 2, by omega⟩
    rw [Exec.toks, cons_append, append_assoc, cons_append] at hfuel ⊢
    refine wp_peek_pos (by decide) (next_lpar.mpr ⟨_, rfl⟩) ?_
    refine wp_take (by decide) rfl nofun fun _ => ?_
    refine reads_seq (l.complete (.inr rfl) (by simp at hfuel ⊢; omega)) ?_
    rintro _ _ ⟨rfl, rfl⟩
    refine wp_take (by decide) rfl nofun fun _ => ?_
    exact redirs_complete _ rs hrest.not_redir (by simp at hfuel ⊢; omega)
  | .simple rs args few, rest, fuel, hrest, hfuel => by
    obtain ⟨fuel, rfl⟩ := fuel_succ hfuel
    rw [Exec.toks, append_assoc] at hfuel ⊢
    refine wp_peek_neg (by decide) (not_lpar_simple rs args hrest) ?_
    apply reads_seq (redirs_complete _ rs (not_redir_argToks args hrest) (by omega))
    rintro _ _ ⟨rfl, rfl⟩
    rw [length_append] at hfuel
    refine wp_mono (reads_mono _) (args_complete [] rs args (by simpa using few) hrest (by omega)) ?_
    rintro _ _ ⟨rfl, rfl⟩
    exact ⟨rfl, rfl⟩

end

mutual

/-- **The grammar is not ambiguous.** -/
theorem Line.unique : (l l' : Line) → ∀ {rest rest' : List Token}, l.toks ++ rest = l'.toks ++ rest' →
    EndsLine rest → EndsLine rest' → l = l' ∧ rest = rest'
  | .last p n, .last p' n', rest, rest', h, hrest, hrest' => by
    rw [Line.toks, Line.toks, append_assoc, append_assoc] at h
    obtain ⟨rfl, h₁⟩ := p.unique p' h (endsPipe_backs n (.inl hrest)) (endsPipe_backs n' (.inl hrest'))
    obtain ⟨rfl, h₂⟩ := backs_unique h₁ hrest.not_amp hrest'.not_amp
    exact ⟨rfl, h₂⟩
  | .last p n, .seq p' n' l', rest, rest', h, hrest, hrest' => by
    rw [Line.toks, Line.toks, append_assoc, append_assoc, append_assoc, cons_append] at h
    obtain ⟨rfl, h₁⟩ := p.unique p' h (endsPipe_backs n (.inl hrest)) (endsPipe_backs n' endsPipe_semi)
    obtain ⟨rfl, rfl⟩ := backs_unique h₁ hrest.not_amp not_amp_semi
    exact absurd (next_semi.mpr ⟨_, rfl⟩) hrest.not_semi
  | .seq p n l, .last p' n', rest, rest', h, hrest, hrest' => by
    rw [Line.toks, Line.toks, append_assoc, append_assoc, append_assoc, cons_append] at h
    obtain ⟨rfl, h₁⟩ := p.unique p' h (endsPipe_backs n endsPipe_semi) (endsPipe_backs n' (.inl hrest'))
    obtain ⟨rfl, rfl⟩ := backs_unique h₁ not_amp_semi hrest'.not_amp
    exact absurd (next_semi.mpr ⟨_, rfl⟩) hrest'.not_semi
  | .seq p n l, .seq p' n' l', rest, rest', h, hrest, hrest' => by
    rw [Line.toks, Line.toks, append_assoc, append_assoc, append_assoc, append_assoc,
      cons_append, cons_append] at h
    obtain ⟨rfl, h₁⟩ := p.unique p' h (endsPipe_backs n endsPipe_semi) (endsPipe_backs n' endsPipe_semi)
    obtain ⟨rfl, h₂⟩ := backs_unique h₁ not_amp_semi not_amp_semi
    obtain ⟨rfl, h₃⟩ := l.unique l' (cons.inj h₂).2 hrest hrest'
    exact ⟨rfl, h₃⟩

theorem Pipe.unique : (p p' : Pipe) → ∀ {rest rest' : List Token}, p.toks ++ rest = p'.toks ++ rest' →
    EndsPipe rest → EndsPipe rest' → p = p' ∧ rest = rest'
  | .exec e, .exec e', rest, rest', h, hrest, hrest' => by
    obtain ⟨rfl, h₁⟩ := e.unique e' h hrest.endsExec hrest'.endsExec
    exact ⟨rfl, h₁⟩
  | .exec e, .pipe e' p', rest, rest', h, hrest, hrest' => by
    rw [Pipe.toks, Pipe.toks, append_assoc, cons_append] at h
    obtain ⟨rfl, rfl⟩ := e.unique e' h hrest.endsExec endsExec_bar
    exact absurd (next_bar.mpr ⟨_, rfl⟩) hrest.not_bar
  | .pipe e p, .exec e', rest, rest', h, hrest, hrest' => by
    rw [Pipe.toks, Pipe.toks, append_assoc, cons_append] at h
    obtain ⟨rfl, rfl⟩ := e.unique e' h endsExec_bar hrest'.endsExec
    exact absurd (next_bar.mpr ⟨_, rfl⟩) hrest'.not_bar
  | .pipe e p, .pipe e' p', rest, rest', h, hrest, hrest' => by
    rw [Pipe.toks, Pipe.toks, append_assoc, append_assoc, cons_append, cons_append] at h
    obtain ⟨rfl, h₁⟩ := e.unique e' h endsExec_bar endsExec_bar
    obtain ⟨rfl, h₂⟩ := p.unique p' (cons.inj h₁).2 hrest hrest'
    exact ⟨rfl, h₂⟩

theorem Exec.unique : (e e' : Exec) → ∀ {rest rest' : List Token}, e.toks ++ rest = e'.toks ++ rest' →
    EndsExec rest → EndsExec rest' → e = e' ∧ rest = rest'
  | .block l rs, .block l' rs', rest, rest', h, hrest, hrest' => by
    rw [Exec.toks, Exec.toks, cons_append, cons_append, append_assoc, append_assoc,
      cons_append, cons_append] at h
    obtain ⟨rfl, h₁⟩ := l.unique l' (cons.inj h).2 (.inr rfl) (.inr rfl)
    obtain ⟨rfl, h₂⟩ := redirs_unique (cons.inj h₁).2 hrest.not_redir hrest'.not_redir
    exact ⟨rfl, h₂⟩
  | .block l rs, .simple rs' args' _, rest, rest', h, hrest, hrest' => by
    rw [Exec.toks, Exec.toks, append_assoc] at h
    exact absurd (next_lpar.mpr ⟨_, h.symm⟩) (not_lpar_simple rs' args' hrest')
  | .simple rs args _, .block l' rs', rest, rest', h, hrest, hrest' => by
    rw [Exec.toks, Exec.toks, append_assoc] at h
    exact absurd (next_lpar.mpr ⟨_, h⟩) (not_lpar_simple rs args hrest)
  | .simple rs args _, .simple rs' args' _, rest, rest', h, hrest, hrest' => by
    rw [Exec.toks, Exec.toks, append_assoc, append_assoc] at h
    obtain ⟨rfl, h₁⟩ := redirs_unique h (not_redir_argToks args hrest) (not_redir_argToks args' hrest')
    obtain ⟨rfl, h₂⟩ := args_unique h₁ hrest hrest'
    exact ⟨rfl, h₂⟩

end

end Complete

/-! ### The parser on a line -/

/-- Every token has at least one character. -/
theorem lex_length_le (p : Nat) (s : Str) : (lex p s).length ≤ s.length := by
  induction hn : s.length using Nat.strong_induction_on generalizing p s with
  | _ n ih =>
    subst hn
    have hshort : ∀ {q : Nat} {u : Str}, u.length < s.length → (lex q u).length ≤ u.length :=
      fun h => ih _ h _ _ rfl
    cases s with
    | nil =>
      rw [lex]
      exact le_rfl
    | cons c s =>
      rw [lex]
      split
      · have := @hshort (p + 1) s (Nat.lt_succ_self _)
        rw [length_cons]
        omega
      split
      · have := @hshort (p + 2) s.tail (by simp)
        simp at this ⊢
        omega
      split
      · have := @hshort (p + 1) s (Nat.lt_succ_self _)
        simpa using this
      · have := @hshort (p + 1 + (s.takeWhile plain).length) (s.drop (s.takeWhile plain).length) (by simp)
        simp at this ⊢
        omega

theorem at_start (buf : Str) : At buf 0 (lex 0 buf) := ⟨Nat.zero_le _, rfl⟩

/-- What is derived comes out. -/
theorem parsecmd_complete {buf : Str} (h0 : 0 ∉ buf) {fuel : Nat} (hfuel : 4 * buf.length + 4 ≤ fuel) {l : Line}
    (hl : l.toks = lex 0 buf) : parsecmd fuel buf = .ok (l.tree, nulterminate buf l.tree) := by
  have hlen := lex_length_le 0 buf
  have hwp : (parseline fuel).wp (reads False) (l.toks ++ []) fun c m => c = l.tree ∧ m = [] :=
    l.complete (.inl rfl) (by rw [append_nil, hl]; omega)
  rw [append_nil, hl] at hwp
  rcases wp_run (reads_meet h0 False) (at_start buf) hwp with ⟨s, c, m, hrun, hat, rfl, rfl⟩ | ⟨hno, -⟩
  · rw [parsecmd, hrun]
    dsimp only
    rw [if_neg (not_not.mpr ((hat.end_iff h0).mpr rfl))]
  · exact hno.elim

/-- **The parser accepts just its grammar.**  On every line it comes to an end.  It returns a tree if and only if the
tokens of the line are derived from the grammar, and then the derivation is unique and the tree is its tree. -/
theorem parsecmd_iff (buf : Str) (h0 : 0 ∉ buf) (fuel : Nat) (hfuel : 4 * buf.length + 4 ≤ fuel) :
    parsecmd fuel buf ≠ .blocked ∧
      ((∃ r, parsecmd fuel buf = .ok r) ↔ ∃ l : Line, l.toks = lex 0 buf) ∧
      ∀ cmd buf', parsecmd fuel buf = .ok (cmd, buf') →
        ∃ l : Line, l.toks = lex 0 buf ∧ cmd = l.tree ∧ ∀ l' : Line, l'.toks = lex 0 buf → l' = l := by
  have hlen := lex_length_le 0 buf
  -- what comes out is derived
  have hsound : ∀ cmd buf', parsecmd fuel buf = .ok (cmd, buf') → ∃ l : Line, l.toks = lex 0 buf ∧ cmd = l.tree := by
    intro cmd buf' hok
    rcases wp_run (reads_meet h0 True) (at_start buf) (line_sound _ fuel (by omega)) with
      ⟨s, c, m, hrun, hat, l, hl, rfl⟩ | ⟨-, msg, hrun⟩
    · rw [parsecmd, hrun] at hok
      dsimp only at hok
      split at hok
      · cases hok
      next hend =>
        obtain ⟨rfl, -⟩ := Prod.mk.inj (Outcome.ok.inj hok)
        obtain rfl := (hat.end_iff h0).mp (not_not.mp hend)
        exact ⟨l, by rw [hl, append_nil], rfl⟩
    · rw [parsecmd, hrun] at hok
      cases hok
  have hunique : ∀ l l' : Line, l.toks = lex 0 buf → l'.toks = lex 0 buf → l' = l := by
    intro l l' hl hl'
    have heq : l'.toks ++ [] = l.toks ++ [] := by rw [hl, hl']
    exact (l'.unique l heq (.inl rfl) (.inl rfl)).1
  refine ⟨?_, ⟨?_, ?_⟩, ?_⟩
  · rcases wp_run (reads_meet h0 True) (at_start buf) (line_sound _ fuel (by omega)) with
      ⟨s, c, m, hrun, -⟩ | ⟨-, msg, hrun⟩
    · rw [parsecmd, hrun]
      dsimp only
      split <;> exact nofun
    · rw [parsecmd, hrun]
      exact nofun
  · rintro ⟨⟨cmd, buf'⟩, hok⟩
    obtain ⟨l, hl, -⟩ := hsound cmd buf' hok
    exact ⟨l, hl⟩
  · rintro ⟨l, hl⟩
    exact ⟨_, parsecmd_complete h0 hfuel hl⟩
  · intro cmd buf' hok
    obtain ⟨l, hl, rfl⟩ := hsound cmd buf' hok
    exact ⟨l, hl, rfl, fun l' hl' => hunique l l' hl hl'⟩

/-- A pipeline with a redirection. -/
theorem parsecmd_iff_pipeline : ∃ cmd buf', parsecmd 50 (str "ls | wc >f") = .ok (cmd, buf') ∧
    ∃ l : Line, l.toks = lex 0 (str "ls | wc >f") ∧ cmd = l.tree ∧
      ∀ l' : Line, l'.toks = lex 0 (str "ls | wc >f") → l' = l := by
  obtain ⟨cmd, buf', hok⟩ : ∃ cmd buf', parsecmd 50 (str "ls | wc >f") = .ok (cmd, buf') := ⟨_, _, rfl⟩
  exact ⟨cmd, buf', hok, (parsecmd_iff (str "ls | wc >f") (by decide) 50 (by decide)).2.2 cmd buf' hok⟩

end Xv6.Sh
