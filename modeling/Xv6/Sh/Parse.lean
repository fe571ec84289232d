import Xv6.Lib.Wp
import Mathlib.Logic.Function.Basic

/-!
# The parser of the shell

`gettoken`, `peek` and the parse functions of `sh.c`.  A pointer into the command string is the
rest of the string from there on; the string ends at `es`, where the byte is 0.  Memory allocation
is taken to succeed.  The functions count calls and loop rounds down, so that they are total.
-/

namespace Xv6

namespace Sh

abbrev MAXARGS : Nat := 10

abbrev O_RDONLY : Nat := 0x000
abbrev O_WRONLY : Nat := 0x001
abbrev O_CREATE : Nat := 0x200

/-- The byte of an ASCII character. -/
def ch (c : Char) : UInt8 := c.toNat.toUInt8

def whitespace : List UInt8 := [' ', '\t', '\r', '\n', '\x0b'].map ch

def symbols : List UInt8 := ['<', '|', '>', '&', ';', '(', ')'].map ch

/-- A byte that belongs to a word. -/
def wordByte (c : UInt8) : Bool := !whitespace.contains c && !symbols.contains c

/-- A pointer into the command string. -/
abbrev Ptr := List UInt8

/-- A word of the command string, from `q` up to `eq`. -/
structure Span where
  q : Ptr
  eq : Ptr

/-- The trees of `struct cmd`, with words of type `W`. -/
inductive Cmd (W : Type) where
  | exec (argv : List W)
  | redir (cmd : Cmd W) (file : W) (mode fd : Nat)
  | pipe (left right : Cmd W)
  | list (left right : Cmd W)
  | back (cmd : Cmd W)
  deriving DecidableEq

namespace Cmd

variable {W V : Type}

def map (f : W → V) : Cmd W → Cmd V
  | exec argv => exec (argv.map f)
  | redir c file mode fd => redir (c.map f) (f file) mode fd
  | pipe l r => pipe (l.map f) (r.map f)
  | list l r => list (l.map f) (r.map f)
  | back c => back (c.map f)

/-- `cmd->argv[argc] = q` of `parseexec`, where `cmd` lies under the redirections of `ret`. -/
def addArg (w : W) : Cmd W → Cmd W
  | exec argv => exec (argv ++ [w])
  | redir c file mode fd => redir (c.addArg w) file mode fd
  | pipe l r => pipe l r
  | list l r => list l r
  | back c => back c

end Cmd

/-- Why a parse function did not return. -/
inductive Stop where
  | panic (msg : String)
  | fuel
  deriving DecidableEq

abbrev Parser := Run Stop Ptr

/-- `while(s < es && strchr(whitespace, *s)) s++`. -/
def skip (s : Ptr) : Ptr := s.dropWhile whitespace.contains

structure Token where
  ret : UInt8
  span : Span

/-- The `switch` of `gettoken`: the token that starts at `s`, and where it ends. -/
def scan : Ptr → UInt8 × Ptr
  | [] => (0, [])
  | c :: s =>
    if c = 0 then (0, c :: s)
    else if c = ch '|' ∨ c = ch '(' ∨ c = ch ')' ∨ c = ch ';' ∨ c = ch '&' ∨ c = ch '<' then (c, s)
    else if c = ch '>' then
      match s with
      | [] => (c, [])
      | d :: t => if d = ch '>' then (ch '+', t) else (c, d :: t)
    else (ch 'a', (c :: s).dropWhile wordByte)

def gettoken : Parser Token := do
  let s := skip (← get)
  let (ret, e) := scan s
  set (skip e)
  return ⟨ret, s, e⟩

def peek (toks : List UInt8) : Parser Bool := do
  let s := skip (← get)
  set s
  match s with
  | [] => return false
  | c :: _ => return c ≠ 0 && toks.contains c

/-- The `switch` of `parseredirs`. -/
def redircmd (tok : UInt8) (file : Span) (c : Cmd Span) : Cmd Span :=
  if tok = ch '<' then .redir c file O_RDONLY 0
  else if tok = ch '>' ∨ tok = ch '+' then .redir c file (O_WRONLY ||| O_CREATE) 1
  else c

def parseredirs : Nat → Cmd Span → Parser (Cmd Span)
  | 0, _ => throw .fuel
  | fuel + 1, cmd => do
    if ← peek [ch '<', ch '>'] then
      let tok ← gettoken
      let file ← gettoken
      if file.ret ≠ ch 'a' then throw (.panic "missing file for redirection")
      else parseredirs fuel (redircmd tok.ret file.span cmd)
    else return cmd

/-- The loop of `parseexec`. -/
def parseargs : Nat → Cmd Span → Nat → Parser (Cmd Span)
  | 0, _, _ => throw .fuel
  | fuel + 1, ret, argc => do
    if ← peek [ch '|', ch ')', ch '&', ch ';'] then return ret
    else
      let tok ← gettoken
      if tok.ret = 0 then return ret
      else if tok.ret ≠ ch 'a' then throw (.panic "syntax")
      else if MAXARGS ≤ argc + 1 then throw (.panic "too many args")
      else
        let ret' ← parseredirs fuel (ret.addArg tok.span)
        parseargs fuel ret' (argc + 1)

/-- The loop of `parseline` over `&`. -/
def parsebacks : Nat → Cmd Span → Parser (Cmd Span)
  | 0, _ => throw .fuel
  | fuel + 1, cmd => do
    if ← peek [ch '&'] then
      let _ ← gettoken
      parsebacks fuel (.back cmd)
    else return cmd

mutual

def parseline : Nat → Parser (Cmd Span)
  | 0 => throw .fuel
  | fuel + 1 => do
    let cmd ← parsepipe fuel
    let cmd' ← parsebacks fuel cmd
    if ← peek [ch ';'] then
      let _ ← gettoken
      let rest ← parseline fuel
      return .list cmd' rest
    else return cmd'

def parsepipe : Nat → Parser (Cmd Span)
  | 0 => throw .fuel
  | fuel + 1 => do
    let cmd ← parseexec fuel
    if ← peek [ch '|'] then
      let _ ← gettoken
      let rest ← parsepipe fuel
      return .pipe cmd rest
    else return cmd

def parseblock : Nat → Parser (Cmd Span)
  | 0 => throw .fuel
  | fuel + 1 => do
    if ← peek [ch '('] then
      let _ ← gettoken
      let cmd ← parseline fuel
      if ← peek [ch ')'] then
        let _ ← gettoken
        parseredirs fuel cmd
      else throw (.panic "syntax - missing )")
    else throw (.panic "parseblock")

def parseexec : Nat → Parser (Cmd Span)
  | 0 => throw .fuel
  | fuel + 1 => do
    if ← peek [ch '('] then parseblock fuel
    else
      let ret ← parseredirs fuel (.exec [])
      parseargs fuel ret 0

end

/-- The command string in memory, by the distance of each byte from `es`. -/
def memory (s : List UInt8) (k : Nat) : UInt8 := (s.drop (s.length - k)).headD 0

/-- `*p = 0`. -/
def clear (mem : Nat → UInt8) (p : Ptr) : Nat → UInt8 := Function.update mem p.length 0

def nulterminate : Cmd Span → (Nat → UInt8) → Nat → UInt8
  | .exec argv, mem => argv.foldl (fun m w => clear m w.eq) mem
  | .redir c file _ _, mem => clear (nulterminate c mem) file.eq
  | .pipe l r, mem | .list l r, mem => nulterminate r (nulterminate l mem)
  | .back c, mem => nulterminate c mem

/-- The C string at distance `k` from `es`. -/
def cstrAt (mem : Nat → UInt8) : Nat → List UInt8
  | 0 => []
  | k + 1 => if mem (k + 1) = 0 then [] else mem (k + 1) :: cstrAt mem k

/-- `parsecmd`, with the words of the tree as the caller finds them in memory. -/
def parsecmd (fuel : Nat) (s : List UInt8) : Except Stop (Cmd (List UInt8)) := do
  let (cmd, rest) ← (parseline fuel).run s
  if skip rest ≠ [] then throw (.panic "syntax")
  else
    let mem := nulterminate cmd (memory s)
    return cmd.map fun w => cstrAt mem w.q.length

end Sh

end Xv6
