/-
Xv6/Sh.lean

The parser of the shell, user/sh.c.

The parsing functions are programs over `peek` and `gettoken`, which share a cursor into
the line; `exec` says what these two do with the bytes.  The tree that is built points into
the line: a word is a pair of positions.  `nulterminate` then overwrites the bytes behind the
words.  Recursion and loops have a bound on their depth; a program that exceeds it
comes to `Op.stop` and is `blocked`.

`lex` is what the line consists of: its tokens, from left to right.  `tokens_meet` says
that `peek` and `gettoken` see the tokens one by one.  From there on the parser is a
matter of tokens alone (ShGrammar.lean).
-/
import Xv6.SysFile

namespace Xv6.Sh

open List

open Sys (O_RDONLY O_WRONLY O_CREATE O_TRUNC)

def MAXARGS : Nat := 10

/-- The bytes of a string literal. -/
def str (s : String) : Str := s.toList.map Char.toUInt8

/-- Parsed command representation.  Words are of type `W`: pairs of pointers while the line is parsed. -/
inductive Cmd (W : Type) where
  | exec (argv : List W)
  | redir (cmd : Cmd W) (file : W) (mode : UInt32) (fd : Nat)
  | pipe (left right : Cmd W)
  | list (left right : Cmd W)
  | back (cmd : Cmd W)
  deriving DecidableEq

/-- Where a word starts and where it ends. -/
structure Ptr where
  q : Nat
  eq : Nat
  deriving DecidableEq

namespace Cmd

/-- `cmd->argv[argc] = q`, where `cmd` is the command inside the redirections. -/
def addArg {W : Type} (w : W) : Cmd W → Cmd W
  | .exec argv => .exec (argv ++ [w])
  | .redir cmd file mode fd => .redir (cmd.addArg w) file mode fd
  | cmd => cmd

end Cmd

/-! ### Parsing -/

/-- What the parsing functions do with the line. -/
inductive Op : Type
  | peek (toks : Str)
  | gettoken
  | panic (msg : String)
  /-- The bound is exceeded. -/
  | stop

@[reducible] def Op.Resp : Op → Type
  | .peek _ => Bool
  | .gettoken => UInt8 × Ptr
  | .panic _ | .stop => Empty

abbrev ShProg (α : Type) : Type := Prog Op Op.Resp α

def peek (toks : String) : ShProg Bool := Prog.op (Op.peek (str toks))

def gettoken : ShProg (UInt8 × Ptr) := Prog.op Op.gettoken

def panic {α : Type} (msg : String) : ShProg α := .call (.panic msg) nofun

def stop {α : Type} : ShProg α := .call .stop nofun

/-- A character that `gettoken` returns. -/
def tok (c : Char) : UInt8 := c.toUInt8

def parseredirs : Nat → Cmd Ptr → ShProg (Cmd Ptr)
  | 0, _ => stop
  | fuel + 1, cmd => do
    if ← peek "<>" then
      let t ← gettoken
      let f ← gettoken
      if f.1 ≠ tok 'a' then panic "missing file for redirection"
      else if t.1 = tok '<' then parseredirs fuel (.redir cmd f.2 O_RDONLY 0)
      else if t.1 = tok '>' then parseredirs fuel (.redir cmd f.2 (O_WRONLY ||| O_CREATE ||| O_TRUNC) 1)
      else if t.1 = tok '+' then parseredirs fuel (.redir cmd f.2 (O_WRONLY ||| O_CREATE) 1)
      else parseredirs fuel cmd
    else return cmd

/-- The loop of `parseexec`. -/
def parseargs : Nat → Cmd Ptr → Nat → ShProg (Cmd Ptr)
  | 0, _, _ => stop
  | fuel + 1, ret, argc => do
    if ← peek "|)&;" then return ret
    else
      let t ← gettoken
      if t.1 = 0 then return ret
      else if t.1 ≠ tok 'a' then panic "syntax"
      else if MAXARGS ≤ argc + 1 then panic "too many args"
      else
        let ret ← parseredirs fuel (ret.addArg t.2)
        parseargs fuel ret (argc + 1)

/-- The loop of `parseline`. -/
def parsebacks : Nat → Cmd Ptr → ShProg (Cmd Ptr)
  | 0, _ => stop
  | fuel + 1, cmd => do
    if ← peek "&" then
      let _ ← gettoken
      parsebacks fuel (.back cmd)
    else return cmd

mutual

def parseline : Nat → ShProg (Cmd Ptr)
  | 0 => stop
  | fuel + 1 => do
    let cmd ← parsepipe fuel
    let cmd ← parsebacks fuel cmd
    if ← peek ";" then
      let _ ← gettoken
      let right ← parseline fuel
      return .list cmd right
    else return cmd

def parsepipe : Nat → ShProg (Cmd Ptr)
  | 0 => stop
  | fuel + 1 => do
    let cmd ← parseexec fuel
    if ← peek "|" then
      let _ ← gettoken
      let right ← parsepipe fuel
      return .pipe cmd right
    else return cmd

def parseblock : Nat → ShProg (Cmd Ptr)
  | 0 => stop
  | fuel + 1 => do
    if ← peek "(" then
      let _ ← gettoken
      let cmd ← parseline fuel
      if ← peek ")" then
        let _ ← gettoken
        parseredirs fuel cmd
      else panic "syntax - missing )"
    else panic "parseblock"

def parseexec : Nat → ShProg (Cmd Ptr)
  | 0 => stop
  | fuel + 1 => do
    if ← peek "(" then parseblock fuel
    else
      let ret ← parseredirs fuel (.exec [])
      parseargs fuel ret 0

end

/-! ### The bytes of the line -/

def whitespace : Str := [32, 9, 13, 10, 11]

def symbols : Str := str "<|>&;()"

def strchr (s : Str) (c : UInt8) : Bool := s.contains c

/-- `*s`: the line is terminated by zero. -/
def deref (buf : Str) (s : Nat) : UInt8 := buf.getD s 0

/-- `while(s < es && p(*s)) s++;` -/
def scan (p : UInt8 → Bool) (buf : Str) (s : Nat) : Nat := s + ((buf.drop s).takeWhile p).length

def skipSpace (buf : Str) (s : Nat) : Nat := scan (strchr whitespace) buf s

/-- A character of a word. -/
def plain (c : UInt8) : Bool := !strchr whitespace c && !strchr symbols c

/-- What `gettoken` finds behind the white space: what it returns and the end of the token. -/
def token (buf : Str) (s : Nat) : UInt8 × Nat :=
  let c := deref buf s
  if c = 0 then (c, s)
  else if c = tok '|' ∨ c = tok '(' ∨ c = tok ')' ∨ c = tok ';' ∨ c = tok '&' ∨ c = tok '<' then (c, s + 1)
  else if c = tok '>' then
    if deref buf (s + 1) = tok '>' then (tok '+', s + 2) else (c, s + 1)
  else (tok 'a', scan plain buf s)

/-- What the operations do with a line `buf` and the cursor. -/
def exec (buf : Str) (s : Nat) : (o : Op) → Outcome (Nat × o.Resp)
  | .peek toks =>
    let s := skipSpace buf s
    .ok (s, deref buf s ≠ 0 && strchr toks (deref buf s))
  | .gettoken =>
    let q := skipSpace buf s
    let t := token buf q
    .ok (skipSpace buf t.2, (t.1, ⟨q, t.2⟩))
  | .panic msg => .panic msg
  | .stop => .blocked

/-- NUL-terminate all the counted strings. -/
def nulterminate (buf : Str) : Cmd Ptr → Str
  | .exec argv => argv.foldl (fun buf w => buf.set w.eq 0) buf
  | .redir cmd file _ _ => (nulterminate buf cmd).set file.eq 0
  | .pipe left right => nulterminate (nulterminate buf left) right
  | .list left right => nulterminate (nulterminate buf left) right
  | .back cmd => nulterminate buf cmd

/-- The tree of a line, and the line with its words terminated. -/
def parsecmd (fuel : Nat) (buf : Str) : Outcome (Cmd Ptr × Str) :=
  match (parseline fuel).run (exec buf) 0 with
  | .ok (s, cmd) => if skipSpace buf s ≠ buf.length then .panic "syntax" else .ok (cmd, nulterminate buf cmd)
  | .blocked => .blocked
  | .panic msg => .panic msg

/-! ### Tokens -/

/-- What a line consists of. -/
inductive Token where
  | lt
  | gt
  /-- The symbol ">>". -/
  | append
  | bar
  | amp
  | semi
  | lpar
  | rpar
  | word (w : Ptr)
  deriving DecidableEq

namespace Token

/-- The symbol that is one character. -/
def ofChar (c : UInt8) : Option Token :=
  if c = tok '<' then some lt
  else if c = tok '>' then some gt
  else if c = tok '|' then some bar
  else if c = tok '&' then some amp
  else if c = tok ';' then some semi
  else if c = tok '(' then some lpar
  else if c = tok ')' then some rpar
  else none

/-- What `gettoken` returns. -/
def ret : Token → UInt8
  | lt => tok '<'
  | gt => tok '>'
  | append => tok '+'
  | bar => tok '|'
  | amp => tok '&'
  | semi => tok ';'
  | lpar => tok '('
  | rpar => tok ')'
  | word _ => tok 'a'

/-- The token starts with one of these symbols. -/
def starts (toks : Str) : Token → Bool
  | append => toks.contains (tok '>')
  | word _ => false
  | t => toks.contains t.ret

end Token

/-- The tokens of a string that starts at position `p`: symbols, ">>", and maximal runs of other
characters that are not white space. -/
def lex (p : Nat) : Str → List Token
  | [] => []
  | c :: s =>
    if strchr whitespace c then lex (p + 1) s
    else if c = tok '>' ∧ s.head? = some (tok '>') then .append :: lex (p + 2) s.tail
    else
      match Token.ofChar c with
      | some t => t :: lex (p + 1) s
      | none =>
        let n := (s.takeWhile plain).length
        .word ⟨p, p + 1 + n⟩ :: lex (p + 1 + n) (s.drop n)
  termination_by s => s.length
  decreasing_by all_goals simp; try omega

/-- What `peek` and `gettoken` do as far as the tokens are concerned; whether the program may panic. -/
@[simp] def reads (pan : Prop) : Prog.Spec Op Op.Resp (List Token)
  | .peek toks, ts, Q => (∀ c ∈ toks, c ∈ symbols) ∧ Q (ts.head?.any (Token.starts toks)) ts
  | .gettoken, [], Q => ∀ w, Q (0, w) []
  | .gettoken, .word w :: ts, Q => Q (tok 'a', w) ts
  | .gettoken, t :: ts, Q => ∀ w, Q (t.ret, w) ts
  | .panic _, _, _ => pan
  | .stop, _, _ => False

/-! Characters. -/

variable {c : UInt8}

theorem mem_symbols : c ∈ symbols ↔ c = tok '<' ∨ c = tok '|' ∨ c = tok '>' ∨ c = tok '&' ∨ c = tok ';' ∨
    c = tok '(' ∨ c = tok ')' := by
  show c ∈ [tok '<', tok '|', tok '>', tok '&', tok ';', tok '(', tok ')'] ↔ _
  simp only [mem_cons, not_mem_nil, or_false]

theorem Token.ofChar_eq_some {t : Token} (h : ofChar c = some t) :
    c = t.ret ∧ c ∈ symbols ∧ ∀ toks, t.starts toks = toks.contains c := by
  unfold ofChar at h
  split_ifs at h with h₁ h₂ h₃ h₄ h₅ h₆ h₇
  all_goals
    obtain rfl := Option.some.inj h
    subst c
    exact ⟨rfl, by decide, fun _ => rfl⟩

theorem Token.ofChar_eq_none : ofChar c = none ↔ c ∉ symbols := by
  rw [mem_symbols]
  unfold ofChar
  split_ifs <;> simp_all

theorem not_space_of_mem_symbols (h : c ∈ symbols) : ¬ strchr whitespace c = true := by
  rw [mem_symbols] at h
  rcases h with rfl | rfl | rfl | rfl | rfl | rfl | rfl <;> decide

theorem plain_iff : plain c = true ↔ ¬ strchr whitespace c = true ∧ c ∉ symbols := by
  simp [plain, strchr]

section Lex

variable {buf : Str} {p : Nat} {s : Str} {c : UInt8}

theorem lex_space (h : strchr whitespace c = true) : lex p (c :: s) = lex (p + 1) s := by
  rw [lex, if_pos h]

theorem lex_append (s : Str) : lex p (tok '>' :: tok '>' :: s) = .append :: lex (p + 2) s := by
  rw [lex, if_neg (by decide), if_pos ⟨rfl, rfl⟩, tail_cons]

theorem lex_sym {t : Token} (ht : Token.ofChar c = some t) (hgt : ¬ (c = tok '>' ∧ s.head? = some (tok '>'))) :
    lex p (c :: s) = t :: lex (p + 1) s := by
  rw [lex, if_neg (not_space_of_mem_symbols (Token.ofChar_eq_some ht).2.1), if_neg hgt, ht]

/-- A word goes on to the next character that is not `plain`. -/
theorem lex_word (hc : plain c = true) : lex p (c :: s) =
    .word ⟨p, p + ((c :: s).takeWhile plain).length⟩ ::
      lex (p + ((c :: s).takeWhile plain).length) ((c :: s).drop ((c :: s).takeWhile plain).length) := by
  obtain ⟨hsp, hsym⟩ := plain_iff.mp hc
  have hgt : ¬ (c = tok '>' ∧ s.head? = some (tok '>')) := fun h => hsym (h.1 ▸ by decide)
  have hlen : p + (c :: s.takeWhile plain).length = p + 1 + (s.takeWhile plain).length := by
    rw [length_cons]
    omega
  rw [lex, if_neg hsp, if_neg hgt, Token.ofChar_eq_none.mpr hsym, takeWhile_cons_of_pos hc, hlen, length_cons,
    drop_succ_cons]

/-- White space is skipped. -/
theorem lex_skip (p : Nat) (s : Str) : lex (p + (s.takeWhile (strchr whitespace)).length)
    (s.drop (s.takeWhile (strchr whitespace)).length) = lex p s := by
  induction s generalizing p with
  | nil => rfl
  | cons c s ih =>
    by_cases hc : strchr whitespace c = true
    · rw [takeWhile_cons_of_pos hc, length_cons, drop_succ_cons, lex_space hc, ← ih (p + 1)]
      congr 1
      omega
    · rw [takeWhile_cons_of_neg hc]
      rfl

/-! The cursor. -/

/-- The cursor is in the line, with these tokens behind it. -/
def At (buf : Str) (s : Nat) (ts : List Token) : Prop := s ≤ buf.length ∧ lex s (buf.drop s) = ts

variable {ts : List Token} {n : Nat}

theorem deref_eq (buf : Str) (n : Nat) : deref buf n = (buf.drop n).headD 0 := by
  rw [deref, getD_eq_getElem?_getD, ← List.head?_drop, headD_eq_head?_getD]

theorem scan_le (q : UInt8 → Bool) (h : n ≤ buf.length) : scan q buf n ≤ buf.length := by
  have hle := (takeWhile_sublist q (l := buf.drop n)).length_le
  rw [length_drop] at hle
  rw [scan]
  omega

theorem drop_takeWhile (q : UInt8 → Bool) (s : Str) : s.drop (s.takeWhile q).length = s.dropWhile q := by
  induction s with
  | nil => rfl
  | cons c s ih =>
    by_cases hc : q c = true
    · rw [takeWhile_cons_of_pos hc, dropWhile_cons_of_pos hc, length_cons, drop_succ_cons, ih]
    · rw [takeWhile_cons_of_neg hc, dropWhile_cons_of_neg hc]
      rfl

/-- Skipping white space stays in front of the same tokens, and comes to one of them or to the end. -/
theorem At.skip (h : At buf n ts) : At buf (skipSpace buf n) ts ∧
    ∀ c s, buf.drop (skipSpace buf n) = c :: s → ¬ strchr whitespace c = true := by
  refine ⟨⟨scan_le _ h.1, ?_⟩, fun c s heq => ?_⟩
  · rw [← h.2, skipSpace, scan, ← drop_drop]
    exact lex_skip _ _
  rw [skipSpace, scan, ← drop_drop, drop_takeWhile] at heq
  have hhead := List.head?_dropWhile_not (strchr whitespace) (buf.drop n)
  rw [heq] at hhead
  simpa using hhead

theorem token_append (h : deref buf n = tok '>') (h' : deref buf (n + 1) = tok '>') : token buf n = (tok '+', n + 2) := by
  rw [token, h, if_neg (by decide), if_neg (by decide), if_pos rfl, if_pos h']

theorem token_sym (h : deref buf n = c) (hc : c ∈ symbols) (hgg : ¬ (c = tok '>' ∧ deref buf (n + 1) = tok '>')) :
    token buf n = (c, n + 1) := by
  rw [token, h]
  rw [mem_symbols] at hc
  rcases hc with rfl | rfl | rfl | hc
  · rw [if_neg (by decide), if_pos (by decide)]
  · rw [if_neg (by decide), if_pos (by decide)]
  · rw [if_neg (by decide), if_neg (by decide), if_pos rfl, if_neg (fun h' => hgg ⟨rfl, h'⟩)]
  · rcases hc with rfl | rfl | rfl | rfl <;> rw [if_neg (by decide), if_pos (by decide)]

theorem token_word (h : deref buf n = c) (h0 : c ≠ 0) (hc : c ∉ symbols) :
    token buf n = (tok 'a', scan plain buf n) := by
  rw [mem_symbols] at hc
  rw [token, h, if_neg h0, if_neg (by tauto), if_neg (by tauto)]

/-- **The next token.**  `gettoken` returns it and goes behind it; `peek` sees how it starts. -/
theorem lex_token (h0 : 0 ∉ buf) (hdrop : buf.drop n = c :: s) (hc : ¬ strchr whitespace c = true) :
    ∃ t : Token, (token buf n).1 = t.ret ∧
      lex n (buf.drop n) = t :: lex (token buf n).2 (buf.drop (token buf n).2) ∧ (token buf n).2 ≤ buf.length ∧
      (∀ w, t = .word w → w = ⟨n, (token buf n).2⟩) ∧
      ∀ toks, (∀ x ∈ toks, x ∈ symbols) → t.starts toks = strchr toks c := by
  have hderef : deref buf n = c := by rw [deref_eq, hdrop]; rfl
  have hne : c ≠ 0 := by
    rintro rfl
    exact h0 (mem_of_mem_drop (hdrop ▸ mem_cons_self))
  have hlen : n < buf.length := by
    by_contra hge
    rw [drop_eq_nil_of_le (Nat.not_lt.mp hge)] at hdrop
    cases hdrop
  have hnext : buf.drop (n + 1) = s := by rw [← drop_drop, hdrop]; rfl
  have hderef' : deref buf (n + 1) = s.headD 0 := by rw [deref_eq, hnext]
  by_cases hgg : c = tok '>' ∧ s.head? = some (tok '>')
  · -- ">>"
    obtain ⟨rfl, hs⟩ := hgg
    obtain ⟨s', rfl⟩ : ∃ s', s = tok '>' :: s' := ⟨s.tail, eq_cons_of_mem_head? hs⟩
    have hrest : buf.drop (n + 2) = s' := by
      rw [← Nat.add_assoc n 1 1, ← drop_drop, hnext]
      rfl
    have hle : n + 2 ≤ buf.length := by
      have := congrArg List.length hnext
      simp at this
      omega
    rw [token_append hderef hderef']
    refine ⟨.append, rfl, ?_, hle, nofun, fun _ _ => rfl⟩
    rw [hdrop, lex_append, hrest]
  · cases hchar : Token.ofChar c with
    | some t =>
      obtain ⟨hret, hsym, hstarts⟩ := Token.ofChar_eq_some hchar
      have hgg' : ¬ (c = tok '>' ∧ deref buf (n + 1) = tok '>') := by
        rintro ⟨hc, hd⟩
        refine hgg ⟨hc, ?_⟩
        rw [hderef'] at hd
        cases s with
        | nil => cases hd
        | cons d s => exact congrArg some hd
      rw [token_sym hderef hsym hgg']
      refine ⟨t, hret, ?_, hlen, ?_, fun toks _ => hstarts toks⟩
      · rw [hdrop, lex_sym hchar hgg, hnext]
      rintro w rfl
      have hnot : tok 'a' ∉ symbols := by decide
      have hret' : c = tok 'a' := hret
      exact absurd (hret' ▸ hsym) hnot
    | none =>
      have hnot := Token.ofChar_eq_none.mp hchar
      have hplain : plain c = true := plain_iff.mpr ⟨hc, hnot⟩
      rw [token_word hderef hne hnot]
      refine ⟨.word ⟨n, scan plain buf n⟩, rfl, ?_, scan_le _ hlen.le, ?_, fun toks htoks => ?_⟩
      · rw [hdrop, lex_word hplain, scan, hdrop, ← drop_drop, hdrop]
      · rintro w ⟨⟩
        rfl
      · have hout : c ∉ toks := fun hmem => hnot (htoks c hmem)
        simpa [Token.starts, strchr] using hout

/-- **`peek` and `gettoken` read the tokens**, from left to right. -/
theorem reads_meet (h0 : 0 ∉ buf) (pan : Prop) : Prog.Meets (exec buf) (At buf) (reads pan) pan := by
  intro n ts o Q hat hQ
  cases o with
  | peek toks =>
    obtain ⟨hat', hsp⟩ := hat.skip
    refine .inl ⟨_, _, ts, rfl, hat', ?_⟩
    have hans : (deref buf (skipSpace buf n) ≠ 0 && strchr toks (deref buf (skipSpace buf n)))
        = ts.head?.any (Token.starts toks) := by
      rw [← hat'.2, deref_eq]
      rcases hdrop : buf.drop (skipSpace buf n) with - | ⟨c, s⟩
      · rw [lex]
        rfl
      have hne : c ≠ 0 := by
        rintro rfl
        exact h0 (mem_of_mem_drop (hdrop ▸ mem_cons_self))
      obtain ⟨t, -, hlex, -, -, hstarts⟩ := lex_token h0 hdrop (hsp c s hdrop)
      rw [← hdrop, hlex, hdrop]
      simpa [hne] using (hstarts toks hQ.1).symm
    rw [hans]
    exact hQ.2
  | gettoken =>
    obtain ⟨hat', hsp⟩ := hat.skip
    rcases hdrop : buf.drop (skipSpace buf n) with - | ⟨c, s⟩
    · -- at the end
      have hts : ts = [] := by rw [← hat'.2, hdrop, lex]
      have htoken : token buf (skipSpace buf n) = (0, skipSpace buf n) := by
        rw [token, deref_eq, hdrop]
        rfl
      subst hts
      refine .inl ⟨_, _, [], rfl, ?_, ?_⟩
      · rw [htoken]
        exact hat'.skip.1
      · rw [htoken]
        exact hQ _
    · obtain ⟨t, hret, hlex, hle, hword, -⟩ := lex_token h0 hdrop (hsp c s hdrop)
      have hts : ts = t :: lex (token buf (skipSpace buf n)).2 (buf.drop (token buf (skipSpace buf n)).2) := by
        rw [← hat'.2, hlex]
      have hrest : At buf (token buf (skipSpace buf n)).2
          (lex (token buf (skipSpace buf n)).2 (buf.drop (token buf (skipSpace buf n)).2)) := ⟨hle, rfl⟩
      refine .inl ⟨_, _, _, rfl, hrest.skip.1, ?_⟩
      rw [hts] at hQ
      rw [hret]
      cases t with
      | word w =>
        obtain rfl := hword w rfl
        exact hQ
      | _ => exact hQ _
  | panic msg => exact .inr ⟨hQ, msg, rfl⟩
  | stop => exact hQ.elim

/-- Nothing but white space is left exactly if there are no more tokens. -/
theorem At.end_iff (h0 : 0 ∉ buf) (h : At buf n ts) : skipSpace buf n = buf.length ↔ ts = [] := by
  obtain ⟨hat, hsp⟩ := h.skip
  rcases hdrop : buf.drop (skipSpace buf n) with - | ⟨c, s⟩
  · have hle : buf.length ≤ skipSpace buf n := drop_eq_nil_iff.mp hdrop
    have hts : ts = [] := by rw [← hat.2, hdrop, lex]
    exact iff_of_true (le_antisymm hat.1 hle) hts
  · obtain ⟨t, -, hlex, -⟩ := lex_token h0 hdrop (hsp c s hdrop)
    refine iff_of_false (fun heq => ?_) (fun hts => ?_)
    · rw [heq, drop_length] at hdrop
      cases hdrop
    · rw [← hat.2, hlex] at hts
      cases hts

end Lex

end Xv6.Sh
