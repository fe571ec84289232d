import Xv6.Sh.Parse

/-!
# The grammar of the shell

Tokens of a command string, the trees that the grammar gives to token lists, and a printer for
trees.  Nothing here refers to the parse functions.
-/

namespace Xv6

namespace Sh

abbrev Word := List UInt8

inductive Tok where
  | lt
  | gt
  | gtgt
  | bar
  | amp
  | semi
  | lpar
  | rpar
  | word (w : Word)
  deriving DecidableEq

/-- The token of a symbol that stands alone. -/
def opTok (c : UInt8) : Option Tok :=
  if c = ch '<' then some .lt
  else if c = ch '|' then some .bar
  else if c = ch '>' then some .gt
  else if c = ch '&' then some .amp
  else if c = ch ';' then some .semi
  else if c = ch '(' then some .lpar
  else if c = ch ')' then some .rpar
  else none

/-- The word read so far, if any. -/
def flush : Word → List Tok
  | [] => []
  | c :: w => [.word (c :: w)]

/-- Tokens of a string that continues the word `cur`. -/
def lex : Word → List UInt8 → List Tok
  | cur, [] => flush cur
  | cur, c :: s =>
    if whitespace.contains c then flush cur ++ lex [] s
    else match opTok c with
      | none => lex (cur ++ [c]) s
      | some op =>
        flush cur ++ match s with
          | [] => [op]
          | d :: t =>
            if c = ch '>' ∧ d = ch '>' then .gtgt :: lex [] t else op :: lex [] (d :: t)

def tokens (s : List UInt8) : List Tok := lex [] s

/-- A redirection: file, open mode and descriptor. -/
structure Redir where
  file : Word
  mode : Nat
  fd : Nat

/-- `redir ::= ('<' | '>' | '>>') word`. -/
def Tok.redir (w : Word) : Tok → Option Redir
  | .lt => some ⟨w, O_RDONLY, 0⟩
  | .gt | .gtgt => some ⟨w, O_WRONLY ||| O_CREATE, 1⟩
  | _ => none

/-- Redirections are applied from left to right, the last one outermost. -/
def redirect (rs : List Redir) (c : Cmd Word) : Cmd Word :=
  rs.foldl (fun c r => .redir c r.file r.mode r.fd) c

/-- `redir*`. -/
inductive Redirs : List Tok → List Redir → Prop where
  | nil : Redirs [] []
  | cons {op : Tok} {w : Word} {r : Redir} {ts : List Tok} {rs : List Redir} :
      op.redir w = some r → Redirs ts rs → Redirs (op :: .word w :: ts) (r :: rs)

/-- `(word redir*)*`. -/
inductive Args : List Tok → List Word → List Redir → Prop where
  | nil : Args [] [] []
  | cons {w : Word} {ts ts' : List Tok} {rs rs' : List Redir} {ws : List Word} :
      Redirs ts rs → Args ts' ws rs' → Args (.word w :: (ts ++ ts')) (w :: ws) (rs ++ rs')

inductive Nonterminal where
  | line
  | pipe
  | exec

def backs : Nat → Cmd Word → Cmd Word
  | 0, c => c
  | n + 1, c => backs n (.back c)

/-- Which tree a nonterminal gives to a list of tokens. -/
inductive Derives : Nonterminal → List Tok → Cmd Word → Prop where
  /-- `line ::= pipe '&'*` -/
  | line {ts : List Tok} {c : Cmd Word} (n : Nat) :
      Derives .pipe ts c → Derives .line (ts ++ List.replicate n .amp) (backs n c)
  /-- `line ::= pipe '&'* ';' line` -/
  | lines {ts ts' : List Tok} {c c' : Cmd Word} (n : Nat) :
      Derives .pipe ts c → Derives .line ts' c' →
      Derives .line (ts ++ (List.replicate n .amp ++ .semi :: ts')) (.list (backs n c) c')
  /-- `pipe ::= exec` -/
  | single {ts : List Tok} {c : Cmd Word} : Derives .exec ts c → Derives .pipe ts c
  /-- `pipe ::= exec '|' pipe` -/
  | pipe {ts ts' : List Tok} {c c' : Cmd Word} :
      Derives .exec ts c → Derives .pipe ts' c' → Derives .pipe (ts ++ .bar :: ts') (.pipe c c')
  /-- `exec ::= '(' line ')' redir*` -/
  | block {ts ts' : List Tok} {c : Cmd Word} {rs : List Redir} :
      Derives .line ts c → Redirs ts' rs →
      Derives .exec (.lpar :: (ts ++ .rpar :: ts')) (redirect rs c)
  /-- `exec ::= redir* (word redir*)*`, with fewer than `MAXARGS` words -/
  | simple {ts ts' : List Tok} {rs rs' : List Redir} {ws : List Word} :
      Redirs ts rs → Args ts' ws rs' → ws.length < MAXARGS →
      Derives .exec (ts ++ ts') (redirect (rs ++ rs') (.exec ws))

def paren (bare : Bool) (ts : List Tok) : List Tok := if bare then ts else .lpar :: (ts ++ [.rpar])

/-- The root needs no parentheses as an operand of `;` or `&`. -/
def Cmd.isBack {W : Type} : Cmd W → Bool
  | .list _ _ => false
  | _ => true

/-- The root needs no parentheses on the right of `|`. -/
def Cmd.isPipe {W : Type} : Cmd W → Bool
  | .list _ _ | .back _ => false
  | _ => true

/-- The root needs no parentheses on the left of `|` or before a redirection. -/
def Cmd.isExec {W : Type} : Cmd W → Bool
  | .exec _ | .redir _ _ _ _ => true
  | _ => false

def Cmd.toks : Cmd Word → List Tok
  | .exec argv => argv.map .word
  | .redir c file _ fd => paren c.isExec c.toks ++ [if fd = 0 then .lt else .gt, .word file]
  | .pipe l r => paren l.isExec l.toks ++ .bar :: paren r.isPipe r.toks
  | .list l r => paren l.isBack l.toks ++ .semi :: r.toks
  | .back c => paren c.isBack c.toks ++ [.amp]

def Tok.text : Tok → List UInt8
  | .lt => [ch '<']
  | .gt => [ch '>']
  | .gtgt => [ch '>', ch '>']
  | .bar => [ch '|']
  | .amp => [ch '&']
  | .semi => [ch ';']
  | .lpar => [ch '(']
  | .rpar => [ch ')']
  | .word w => w

/-- The tree in the syntax of the shell, a blank after each token. -/
def Cmd.print (c : Cmd Word) : List UInt8 := c.toks.flatMap fun t => t.text ++ [ch ' ']

/-- A word that can be written down. -/
def IsWord (w : Word) : Prop := w ≠ [] ∧ ∀ c ∈ w, c ≠ 0 ∧ wordByte c = true

/-- The trees of the shell. -/
def Cmd.WellFormed : Cmd Word → Prop
  | .exec argv => argv.length < MAXARGS ∧ ∀ w ∈ argv, IsWord w
  | .redir c file mode fd => c.WellFormed ∧ IsWord file ∧
      (mode = O_RDONLY ∧ fd = 0 ∨ mode = O_WRONLY ||| O_CREATE ∧ fd = 1)
  | .pipe l r | .list l r => l.WellFormed ∧ r.WellFormed
  | .back c => c.WellFormed

end Sh

end Xv6
