/-
Module: CustomXv6.User.Shell
Purpose: The command parser of the shell (user/sh.c), and the grammar of command lines.
Trusted boundary: human-reviewed spec
Main exports: Shell.parsecmd, Lex, Derives
-/
import CustomXv6.Lib.Hoare
import Mathlib.Data.List.Basic

namespace CustomXv6

open Function

namespace Shell

/-!
The string is the list of its bytes up to the NUL, and a pointer into it is what is left of it
from there on.  At the end a pointer reads the NUL; going on from there is the error `pastEnd`.
Allocation of the nodes of the tree is taken to succeed.
-/

/-! ### Trees -/

/-- The trees of `struct cmd`, with words of type `W`. -/
inductive Cmd (W : Type) where
  | exec (argv : List W)
  | redir (cmd : Cmd W) (file : W) (mode fd : Nat)
  | pipe (left right : Cmd W)
  | list (left right : Cmd W)
  | back (cmd : Cmd W)
deriving DecidableEq, Repr

/-- The fields of a `struct redircmd` besides the command. -/
structure Redir (W : Type) where
  file : W
  mode : Nat
  fd : Nat
deriving DecidableEq, Repr

/-- `redircmd` for one redirection after another. -/
def wrap {W : Type} (cmd : Cmd W) (redirs : List (Redir W)) : Cmd W :=
  redirs.foldl (fun cmd r => .redir cmd r.file r.mode r.fd) cmd

/-- A word of the string by its two pointers `q` and `eq`. -/
structure Slice where
  q : List UInt8
  eq : List UInt8
deriving DecidableEq, Repr

/-- The bytes between the two pointers. -/
def Slice.text (slice : Slice) : List UInt8 := slice.q.take (slice.q.length - slice.eq.length)

def Cmd.map {W V : Type} (f : W → V) : Cmd W → Cmd V
  | .exec argv => .exec (argv.map f)
  | .redir cmd file mode fd => .redir (cmd.map f) (f file) mode fd
  | .pipe left right => .pipe (left.map f) (right.map f)
  | .list left right => .list (left.map f) (right.map f)
  | .back cmd => .back (cmd.map f)

/-- All words of a tree, in the order in which `nulterminate` comes to them. -/
def Cmd.words {W : Type} : Cmd W → List W
  | .exec argv => argv
  | .redir cmd file _ _ => cmd.words ++ [file]
  | .pipe left right => left.words ++ right.words
  | .list left right => left.words ++ right.words
  | .back cmd => cmd.words

/-! ### Tokens -/

inductive ParsePanic where
  /-- `missing file for redirection` -/
  | missingFile
  /-- `parseblock` -/
  | parseblock
  /-- `syntax - missing )` -/
  | missingParen
  /-- `syntax`, in `parseexec` -/
  | notAWord
  /-- `too many args` -/
  | tooManyArgs
  /-- `syntax`, in `parsecmd` -/
  | leftovers
deriving DecidableEq, Repr

/-- How the parser stops without a tree.  The last two are not outcomes of the code:
a pointer behind the terminating NUL, and more calls than were allowed for. -/
inductive Stop where
  | panic (message : ParsePanic)
  | pastEnd
  | unbounded
deriving DecidableEq, Repr

/-- Functions of the parser; the state is `*ps`. -/
abbrev ParseM := StateT (List UInt8) (Except Stop)

def whitespace : List UInt8 := [32, 9, 13, 10, 11]

/-- `symbols`: `<|>&;()`. -/
def symbols : List UInt8 := [60, 124, 62, 38, 59, 40, 41]

def deref (s : List UInt8) : UInt8 := s.headD 0

def advance : List UInt8 → ParseM (List UInt8)
  | [] => throw .pastEnd
  | _ :: s => return s

/-- The loops over whitespace of `gettoken` and `peek`. -/
def skip (s : List UInt8) : List UInt8 := s.dropWhile fun c => whitespace.contains c

/-- `gettoken`: the kind of the token, and the pointers `q` and `eq`. -/
def gettoken : ParseM (UInt8 × Slice) := do
  let s := skip (← get)
  let q := s
  let (ret, s) ←
    if deref s = 0 then
      pure (0, s)
    else if deref s = 124 ∨ deref s = 40 ∨ deref s = 41 ∨ deref s = 59 ∨ deref s = 38 ∨
        deref s = 60 then do
      let next ← advance s
      pure (deref s, next)
    else if deref s = 62 then do
      let next ← advance s
      if deref next = 62 then do
        let next ← advance next
        pure (43, next)
      else
        pure (62, next)
    else
      pure (97, s.dropWhile fun c => !whitespace.contains c && !symbols.contains c)
  set (skip s)
  return (ret, { q := q, eq := s })

def peek (toks : List UInt8) : ParseM Bool := do
  let s := skip (← get)
  set s
  return deref s ≠ 0 && toks.contains (deref s)

/-! ### The parser -/

abbrev maxargs : Nat := 10

/-- The redirection for a token of `parseredirs`; `O_RDONLY`,
`O_WRONLY|O_CREATE|O_TRUNC` and `O_WRONLY|O_CREATE` are the modes. -/
def redirOf (tok : UInt8) (file : Slice) : List (Redir Slice) :=
  if tok = 60 then [⟨file, 0, 0⟩]
  else if tok = 62 then [⟨file, 0x601, 1⟩]
  else if tok = 43 then [⟨file, 0x201, 1⟩]
  else []

/-- `parseredirs`: the redirections it puts around its argument, the first one
innermost. -/
def parseredirs : (fuel : Nat) → ParseM (List (Redir Slice))
  | 0 => throw .unbounded
  | fuel + 1 => do
    if ← peek [60, 62] then
      let (tok, _) ← gettoken
      let (next, file) ← gettoken
      if next ≠ 97 then
        throw (.panic .missingFile)
      else
        let rest ← parseredirs fuel
        return redirOf tok file ++ rest
    else
      return []

/-- The loop of `parseexec`.  The node of the command is filled while it is already
inside its redirections, so the words and the redirections are kept apart. -/
def parseargs : (fuel : Nat) → List Slice → List (Redir Slice) →
    ParseM (List Slice × List (Redir Slice))
  | 0, _, _ => throw .unbounded
  | fuel + 1, argv, redirs => do
    if ← peek [124, 41, 38, 59] then
      return (argv, redirs)
    else
      let (tok, word) ← gettoken
      if tok = 0 then
        return (argv, redirs)
      else if tok ≠ 97 then
        throw (.panic .notAWord)
      else if maxargs ≤ argv.length + 1 then
        throw (.panic .tooManyArgs)
      else
        let more ← parseredirs fuel
        parseargs fuel (argv ++ [word]) (redirs ++ more)

/-- The loop of `parseline` over `&`. -/
def parseamps : (fuel : Nat) → Cmd Slice → ParseM (Cmd Slice)
  | 0, _ => throw .unbounded
  | fuel + 1, cmd => do
    if ← peek [38] then
      let _ ← gettoken
      parseamps fuel (.back cmd)
    else
      return cmd

mutual

def parseline : (fuel : Nat) → ParseM (Cmd Slice)
  | 0 => throw .unbounded
  | fuel + 1 => do
    let cmd ← parsepipe fuel
    let cmd ← parseamps fuel cmd
    if ← peek [59] then
      let _ ← gettoken
      let rest ← parseline fuel
      return .list cmd rest
    else
      return cmd

def parsepipe : (fuel : Nat) → ParseM (Cmd Slice)
  | 0 => throw .unbounded
  | fuel + 1 => do
    let cmd ← parseexec fuel
    if ← peek [124] then
      let _ ← gettoken
      let rest ← parsepipe fuel
      return .pipe cmd rest
    else
      return cmd

def parseexec : (fuel : Nat) → ParseM (Cmd Slice)
  | 0 => throw .unbounded
  | fuel + 1 => do
    if ← peek [40] then
      parseblock fuel
    else
      let redirs ← parseredirs fuel
      let (argv, redirs) ← parseargs fuel [] redirs
      return wrap (.exec argv) redirs

def parseblock : (fuel : Nat) → ParseM (Cmd Slice)
  | 0 => throw .unbounded
  | fuel + 1 => do
    if !(← peek [40]) then
      throw (.panic .parseblock)
    else
      let _ ← gettoken
      let cmd ← parseline fuel
      if !(← peek [41]) then
        throw (.panic .missingParen)
      else
        let _ ← gettoken
        let redirs ← parseredirs fuel
        return wrap cmd redirs

end

/-- `nulterminate`: a NUL behind every word, in the buffer of a string of length `n`. -/
def nulterminate (n : Nat) (cmd : Cmd Slice) (buffer : Nat → UInt8) : Nat → UInt8 :=
  cmd.words.foldl (fun buffer word => update buffer (n - word.eq.length) 0) buffer

/-- The string a pointer reads in a buffer whose last NUL is at `n`. -/
def cstring (n : Nat) (buffer : Nat → UInt8) (start : Nat) : List UInt8 :=
  ((List.range (n - start)).map fun k => buffer (start + k)).takeWhile (· ≠ 0)

/-- `parsecmd`: the tree with the words that its pointers read in the end. -/
def parsecmd (input : List UInt8) : Except Stop (Cmd (List UInt8)) := do
  let (cmd, s) ← (parseline (4 * input.length + 4)).run input
  let (_, s) ← (peek []).run s
  if s ≠ [] then
    throw (.panic .leftovers)
  else
    let buffer := nulterminate input.length cmd fun k => input.getD k 0
    return cmd.map fun word => cstring input.length buffer (input.length - word.q.length)

/-! ### The grammar -/

/-- The tokens of a command line, with words of type `W`: `<`, `>`, `>>`, `|`, `&`, `;`,
`(`, `)` and words. -/
inductive Token (W : Type) where
  | word (w : W)
  | input
  | output
  | append
  | bar
  | amp
  | semi
  | opened
  | closed
deriving DecidableEq, Repr

/-- The tokens that are one byte, `>` apart. -/
def symbolToken (c : UInt8) : Option (Token Slice) :=
  if c = 60 then some .input
  else if c = 124 then some .bar
  else if c = 38 then some .amp
  else if c = 59 then some .semi
  else if c = 40 then some .opened
  else if c = 41 then some .closed
  else none

/-- A byte of a word. -/
def WordChar (c : UInt8) : Prop := c ≠ 0 ∧ c ∉ whitespace ∧ c ∉ symbols

/-- The tokens of a string: `>>` is one token, and a word is as long as it can be. -/
inductive Lex : List UInt8 → List (Token Slice) → Prop where
  | done : Lex [] []
  | space {c : UInt8} {s : List UInt8} {ts : List (Token Slice)} (blank : c ∈ whitespace)
      (rest : Lex s ts) : Lex (c :: s) ts
  | symbol {c : UInt8} {s : List UInt8} {t : Token Slice} {ts : List (Token Slice)}
      (here : symbolToken c = some t) (rest : Lex s ts) : Lex (c :: s) (t :: ts)
  | output {s : List UInt8} {ts : List (Token Slice)} (single : s.head? ≠ some 62)
      (rest : Lex s ts) : Lex (62 :: s) (.output :: ts)
  | append {s : List UInt8} {ts : List (Token Slice)} (rest : Lex s ts) :
      Lex (62 :: 62 :: s) (.append :: ts)
  | word {w s : List UInt8} {ts : List (Token Slice)} (some : w ≠ []) (chars : ∀ c ∈ w, WordChar c)
      (longest : ∀ c, s.head? = Option.some c → ¬ WordChar c) (rest : Lex s ts) :
      Lex (w ++ s) (.word ⟨w ++ s, s⟩ :: ts)

/-- `redir ::= ('<' | '>' | '>>') word`, with the mode and the descriptor. -/
inductive RedirOp {W : Type} : Token W → (mode fd : Nat) → Prop where
  | input : RedirOp .input 0 0
  | output : RedirOp .output 0x601 1
  | append : RedirOp .append 0x201 1

inductive Redirs {W : Type} : List (Token W) → List (Redir W) → Prop where
  | nil : Redirs [] []
  | cons {t : Token W} {mode fd : Nat} {w : W} {ts : List (Token W)} {redirs : List (Redir W)}
      (op : RedirOp t mode fd) (rest : Redirs ts redirs) :
      Redirs (t :: .word w :: ts) (⟨w, mode, fd⟩ :: redirs)

/-- `redir* (word redir*)*`, with the words and the redirections. -/
inductive Args {W : Type} : List (Token W) → List W → List (Redir W) → Prop where
  | nil : Args [] [] []
  | redir {t : Token W} {mode fd : Nat} {w : W} {ts : List (Token W)} {argv : List W}
      {redirs : List (Redir W)} (op : RedirOp t mode fd) (rest : Args ts argv redirs) :
      Args (t :: .word w :: ts) argv (⟨w, mode, fd⟩ :: redirs)
  | word {w : W} {ts : List (Token W)} {argv : List W} {redirs : List (Redir W)}
      (rest : Args ts argv redirs) : Args (.word w :: ts) (w :: argv) redirs

/-- `&` as often as that. -/
def backs {W : Type} : Nat → Cmd W → Cmd W
  | 0, cmd => cmd
  | n + 1, cmd => backs n (.back cmd)

/-- The nonterminals of the grammar. -/
inductive Part where
  | line
  | pipe
  | exec

/-- The grammar, with the tree of a derivation:
`line ::= pipe '&'* [';' line]`, `pipe ::= exec ['|' pipe]` and
`exec ::= '(' line ')' redir* | redir* (word redir*)*` with at most 9 words. -/
inductive Derives {W : Type} : Part → List (Token W) → Cmd W → Prop where
  | last {ts : List (Token W)} {cmd : Cmd W} (n : Nat) (pipe : Derives .pipe ts cmd) :
      Derives .line (ts ++ List.replicate n .amp) (backs n cmd)
  | list {ts rest : List (Token W)} {cmd next : Cmd W} (n : Nat) (pipe : Derives .pipe ts cmd)
      (line : Derives .line rest next) :
      Derives .line (ts ++ List.replicate n .amp ++ .semi :: rest) (.list (backs n cmd) next)
  | single {ts : List (Token W)} {cmd : Cmd W} (exec : Derives .exec ts cmd) :
      Derives .pipe ts cmd
  | pipe {ts rest : List (Token W)} {cmd next : Cmd W} (exec : Derives .exec ts cmd)
      (pipe : Derives .pipe rest next) : Derives .pipe (ts ++ .bar :: rest) (.pipe cmd next)
  | block {ts rest : List (Token W)} {cmd : Cmd W} {redirs : List (Redir W)}
      (line : Derives .line ts cmd) (redirects : Redirs rest redirs) :
      Derives .exec (.opened :: (ts ++ .closed :: rest)) (wrap cmd redirs)
  | simple {ts : List (Token W)} {argv : List W} {redirs : List (Redir W)}
      (args : Args ts argv redirs) (few : argv.length ≤ 9) :
      Derives .exec ts (wrap (.exec argv) redirs)

/-- The string is a command line with that tree. -/
def CommandLine (input : List UInt8) (tree : Cmd (List UInt8)) : Prop :=
  ∃ ts cmd, Lex input ts ∧ Derives .line ts cmd ∧ tree = cmd.map Slice.text

end Shell

end CustomXv6
