import Mathlib.Data.List.Forall2

/-!
# Xv6.Sh.Parse

The shell's parser, `sh.c` from `gettoken` to `nulterminate`.

The five parsing procedures look at the line only through `peek` and `gettoken`, so they are written
over a `Lexer`: any type of cursors with these two operations. `sh` is the one of the source, whose
cursors are positions in the line. A word is then a `Span`, the pair of pointers `q` and `eq`.

The recursion runs on fuel. `parsecmd` gives it four units for each byte of the line and four more,
one for each procedure that can be entered between two tokens.
-/

namespace Xv6.Sh

abbrev MAXARGS : Nat := 10

abbrev O_RDONLY : Nat := 0x000
abbrev O_WRONLY : Nat := 0x001
abbrev O_CREATE : Nat := 0x200

/-- `struct cmd`, with words of type `α`. -/
inductive Cmd (α : Type) where
  | exec (argv : List α)
  | redir (cmd : Cmd α) (file : α) (mode fd : Nat)
  | pipe (left right : Cmd α)
  | list (left right : Cmd α)
  | back (cmd : Cmd α)
  deriving DecidableEq, Repr

namespace Cmd

variable {α β : Type}

/-- `cmd->argv[argc] = q`, where `cmd` is the `execcmd` below the redirections. -/
def addArg (w : α) : Cmd α → Cmd α
  | exec argv => exec (argv ++ [w])
  | redir cmd file mode fd => redir (cmd.addArg w) file mode fd
  | cmd => cmd

def map (f : α → β) : Cmd α → Cmd β
  | exec argv => exec (argv.map f)
  | redir cmd file mode fd => redir (cmd.map f) (f file) mode fd
  | pipe left right => pipe (left.map f) (right.map f)
  | list left right => list (left.map f) (right.map f)
  | back cmd => back (cmd.map f)

end Cmd

/-- `whitespace`: blank, tab, return, newline, vertical tab. -/
def whitespace : List UInt8 := [32, 9, 13, 10, 11]

abbrev lt : UInt8 := 60
abbrev bar : UInt8 := 124
abbrev gt : UInt8 := 62
abbrev amp : UInt8 := 38
abbrev semi : UInt8 := 59
abbrev lpar : UInt8 := 40
abbrev rpar : UInt8 := 41

/-- What `gettoken` returns for `>>` and for a word. -/
abbrev plus : UInt8 := 43
abbrev chr_a : UInt8 := 97

def symbols : List UInt8 := [lt, bar, gt, amp, semi, lpar, rpar]

def wordByte (b : UInt8) : Bool := b ∉ whitespace && b ∉ symbols

/-- The result of `gettoken`, with the pointers it sets. -/
structure Token (σ α : Type) where
  tok : UInt8
  word : α
  next : σ

structure Lexer (σ α : Type) where
  peek : σ → List UInt8 → Bool × σ
  gettoken : σ → Token σ α

/-- `*ps`, and the bytes from there to `es`. -/
structure Cursor where
  pos : Nat
  rest : List UInt8
  deriving DecidableEq, Repr

/-- `q` and `eq`. -/
structure Span where
  q : Nat
  eq : Nat
  deriving DecidableEq, Repr

namespace Cursor

/-- `while(s < es && strchr(whitespace, *s)) s++;` -/
def skip : Nat → List UInt8 → Cursor
  | p, [] => ⟨p, []⟩
  | p, b :: r => if b ∈ whitespace then skip (p + 1) r else ⟨p, b :: r⟩

/-- `while(s < es && !strchr(whitespace, *s) && !strchr(symbols, *s)) s++;` -/
def word : Nat → List UInt8 → Cursor
  | p, [] => ⟨p, []⟩
  | p, b :: r => if wordByte b then word (p + 1) r else ⟨p, b :: r⟩

/-- The `switch` of `gettoken`: what it returns and where it leaves `s`. -/
def switch : Nat → List UInt8 → UInt8 × Cursor
  | p, [] => (0, ⟨p, []⟩)
  | p, b :: r =>
    if b = 0 then (0, ⟨p, b :: r⟩)
    else if b = bar ∨ b = lpar ∨ b = rpar ∨ b = semi ∨ b = amp ∨ b = lt then (b, ⟨p + 1, r⟩)
    else if b = gt then
      if r.head? = some gt then (plus, ⟨p + 2, r.tail⟩) else (b, ⟨p + 1, r⟩)
    else (chr_a, word p (b :: r))

def gettoken (c : Cursor) : Token Cursor Span :=
  let s := skip c.pos c.rest
  let r := switch s.pos s.rest
  { tok := r.1
    word := ⟨s.pos, r.2.pos⟩
    next := skip r.2.pos r.2.rest }

def peek (c : Cursor) (toks : List UInt8) : Bool × Cursor :=
  let s := skip c.pos c.rest
  (s.rest.head?.any fun b => b ≠ 0 && b ∈ toks, s)

end Cursor

/-- `gettoken` and `peek` of the source. -/
def sh : Lexer Cursor Span := ⟨Cursor.peek, Cursor.gettoken⟩

inductive Panic where
  | missingFile
  | parseblock
  | missingParen
  | unexpected
  | tooManyArgs
  deriving DecidableEq, Repr

inductive Stop where
  | panic (p : Panic)
  | fuel
  deriving DecidableEq, Repr

section Parser

variable {σ α : Type} (lx : Lexer σ α)

/-- The `switch` of `parseredirs`. -/
def redirect (tok : UInt8) (cmd : Cmd α) (file : α) : Cmd α :=
  if tok = lt then .redir cmd file O_RDONLY 0
  else if tok = gt then .redir cmd file (O_WRONLY ||| O_CREATE) 1
  else if tok = plus then .redir cmd file (O_WRONLY ||| O_CREATE) 1
  else cmd

def parseredirs : Nat → Cmd α → σ → Except Stop (Cmd α × σ)
  | 0, _, _ => .error .fuel
  | n + 1, cmd, c =>
    let p := lx.peek c [lt, gt]
    if p.1 then
      let t := lx.gettoken p.2
      let f := lx.gettoken t.next
      if f.tok ≠ chr_a then .error (.panic .missingFile)
      else parseredirs n (redirect t.tok cmd f.word) f.next
    else .ok (cmd, p.2)

/-- The loop of `parseexec`, with `argc` words found. -/
def parseargs : Nat → Nat → Cmd α → σ → Except Stop (Cmd α × σ)
  | 0, _, _, _ => .error .fuel
  | n + 1, argc, ret, c => do
    let p := lx.peek c [bar, rpar, amp, semi]
    if p.1 then return (ret, p.2)
    else
      let t := lx.gettoken p.2
      if t.tok = 0 then return (ret, t.next)
      else if t.tok ≠ chr_a then .error (.panic .unexpected)
      else if MAXARGS ≤ argc + 1 then .error (.panic .tooManyArgs)
      else
        let r ← parseredirs lx n (ret.addArg t.word) t.next
        parseargs n (argc + 1) r.1 r.2

/-- The loop of `parseline`. -/
def parsebacks : Nat → Cmd α → σ → Except Stop (Cmd α × σ)
  | 0, _, _ => .error .fuel
  | n + 1, cmd, c =>
    let p := lx.peek c [amp]
    if p.1 then parsebacks n (.back cmd) (lx.gettoken p.2).next else .ok (cmd, p.2)

mutual

def parseline : Nat → σ → Except Stop (Cmd α × σ)
  | 0, _ => .error .fuel
  | n + 1, c => do
    let r ← parsepipe n c
    let r ← parsebacks lx n r.1 r.2
    let p := lx.peek r.2 [semi]
    if p.1 then
      let l ← parseline n (lx.gettoken p.2).next
      return (.list r.1 l.1, l.2)
    else return (r.1, p.2)

def parsepipe : Nat → σ → Except Stop (Cmd α × σ)
  | 0, _ => .error .fuel
  | n + 1, c => do
    let r ← parseexec n c
    let p := lx.peek r.2 [bar]
    if p.1 then
      let l ← parsepipe n (lx.gettoken p.2).next
      return (.pipe r.1 l.1, l.2)
    else return (r.1, p.2)

def parseblock : Nat → σ → Except Stop (Cmd α × σ)
  | 0, _ => .error .fuel
  | n + 1, c => do
    let p := lx.peek c [lpar]
    if !p.1 then .error (.panic .parseblock)
    else
      let r ← parseline n (lx.gettoken p.2).next
      let p := lx.peek r.2 [rpar]
      if !p.1 then .error (.panic .missingParen)
      else parseredirs lx n r.1 (lx.gettoken p.2).next

def parseexec : Nat → σ → Except Stop (Cmd α × σ)
  | 0, _ => .error .fuel
  | n + 1, c => do
    let p := lx.peek c [lpar]
    if p.1 then parseblock n p.2
    else
      let r ← parseredirs lx n (.exec []) p.2
      parseargs lx n 0 r.1 r.2

end

end Parser

/-- The bytes of the line, and the zero after it. -/
def buffer (s : List UInt8) (i : Nat) : UInt8 := s.getD i 0

/-- `*ecmd->eargv[i] = 0` for a word. -/
def Span.close (buf : Nat → UInt8) (w : Span) : Nat → UInt8 := Function.update buf w.eq 0

def nulterminate : Cmd Span → (Nat → UInt8) → Nat → UInt8
  | .exec argv, buf => argv.foldl Span.close buf
  | .redir cmd file _ _, buf => Span.close (nulterminate cmd buf) file
  | .pipe left right, buf => nulterminate right (nulterminate left buf)
  | .list left right, buf => nulterminate right (nulterminate left buf)
  | .back cmd, buf => nulterminate cmd buf

/-- `parsecmd` after `parseline`: nothing may be left over. -/
def finish (s : List UInt8) (r : Cmd Span × Cursor) : Except Stop (Cmd Span × (Nat → UInt8)) :=
  if (sh.peek r.2 []).2.pos ≠ s.length then .error (.panic .unexpected)
  else .ok (r.1, nulterminate r.1 (buffer s))

/-- The command, and the line as `nulterminate` leaves it. -/
def parsecmd (s : List UInt8) : Except Stop (Cmd Span × (Nat → UInt8)) := do
  let r ← parseline sh (4 * s.length + 4) ⟨0, s⟩
  finish s r

end Xv6.Sh
