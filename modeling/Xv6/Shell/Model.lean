import Mathlib.Data.List.Basic
import Mathlib.Logic.Function.Basic

/-! # The parser of `sh.c`

A line is a buffer that ends with its only NUL, and a pointer into it is an index. Reading behind
the NUL, storing behind the end of `argv`, and running out of the rounds that the recursion is
given are errors of their own, next to the panics of the source. The recursion is over the number
of rounds; `parseredirs` returns what it wraps around its command, so that the words that
`parseexec` adds later still go to the command inside.
-/

namespace Xv6.Shell

def MAXARGS : Nat := 10

def O_RDONLY : Nat := 0x000
def O_WRONLY : Nat := 0x001
def O_CREATE : Nat := 0x200
def O_TRUNC : Nat := 0x400

/-- A line without its NUL. -/
structure Text where
  chars : List UInt8
  nul_free : ∀ c ∈ chars, c ≠ 0

def Text.len (t : Text) : Nat := t.chars.length

inductive Stop where
  | panic (msg : String)
  /-- a read behind the NUL -/
  | read
  /-- a store behind the end of `argv` or of the line -/
  | store
  | rounds
deriving DecidableEq

/-! ## Commands -/

structure Redir where
  file : Nat
  efile : Nat
  mode : Nat
  fd : Nat
deriving DecidableEq

/-- `argv` and `eargv` up to the null pointer, as pairs. -/
inductive Cmd where
  | exec (argv : List (Nat × Nat))
  | redir (cmd : Cmd) (r : Redir)
  | pipe (left right : Cmd)
  | list (left right : Cmd)
  | back (cmd : Cmd)
deriving DecidableEq

/-- The redirections around a command, the first one inside. -/
def Cmd.wrap (cmd : Cmd) (rs : List Redir) : Cmd := rs.foldl .redir cmd

/-! ## Tokens -/

def whitespace : List UInt8 := [32, 9, 13, 10, 11]

def symbols : List UInt8 := [60, 124, 62, 38, 59, 40, 41]

def strchr (s : List UInt8) (c : UInt8) : Bool := s.contains c

section

variable (t : Text)

def read (s : Nat) : Except Stop UInt8 :=
  if h : s < t.chars.length then .ok t.chars[s] else if s = t.len then .ok 0 else .error .read

/-- `while(s < es && p(*s)) s++`, with `es - s` in `n`. -/
def scanLoop (p : UInt8 → Bool) : Nat → Nat → Except Stop Nat
  | 0, s => .ok s
  | n + 1, s => do
    let c ← read t s
    if p c then scanLoop p n (s + 1) else .ok s

def scan (p : UInt8 → Bool) (s : Nat) : Except Stop Nat := scanLoop t p (t.len - s) s

/-- The characters `|`, `(`, `)`, `;`, `&` and `<`, which are tokens of their own. -/
def single (c : UInt8) : Bool := c = 124 || c = 40 || c = 41 || c = 59 || c = 38 || c = 60

/-- The token at `s`, which is not white space, and its end. -/
def tokenAt (s : Nat) : Except Stop (UInt8 × Nat) := do
  let c ← read t s
  if c = 0 then .ok (0, s)
  else if single c then .ok (c, s + 1)
  else if c = 62 then
    let d ← read t (s + 1)
    if d = 62 then .ok (43, s + 2) else .ok (62, s + 1)
  else
    let s ← scan t (fun c => !strchr whitespace c && !strchr symbols c) s
    .ok (97, s)

def gettoken (s : Nat) : Except Stop (UInt8 × Nat × Nat × Nat) := do
  let q ← scan t (strchr whitespace) s
  let (ret, eq) ← tokenAt t q
  let s ← scan t (strchr whitespace) eq
  .ok (ret, q, eq, s)

def peek (s : Nat) (toks : List UInt8) : Except Stop (Bool × Nat) := do
  let s ← scan t (strchr whitespace) s
  let c ← read t s
  .ok (c ≠ 0 && strchr toks c, s)

/-! ## The parser -/

/-- The loop over `&` in `parseline`. -/
def parsebacks : Nat → Cmd → Nat → Except Stop (Cmd × Nat)
  | 0, _, _ => .error .rounds
  | f + 1, cmd, s => do
    let (more, s) ← peek t s [38]
    if more then
      let (_, _, _, s) ← gettoken t s
      parsebacks f (.back cmd) s
    else .ok (cmd, s)

def redircmd (tok : UInt8) (q eq : Nat) : List Redir :=
  if tok = 60 then [⟨q, eq, O_RDONLY, 0⟩]
  else if tok = 62 then [⟨q, eq, O_WRONLY ||| O_CREATE ||| O_TRUNC, 1⟩]
  else if tok = 43 then [⟨q, eq, O_WRONLY ||| O_CREATE, 1⟩]
  else []

def parseredirs : Nat → Nat → Except Stop (List Redir × Nat)
  | 0, _ => .error .rounds
  | f + 1, s => do
    let (more, s) ← peek t s [60, 62]
    if more then
      let (tok, _, _, s) ← gettoken t s
      let (kind, q, eq, s) ← gettoken t s
      if kind ≠ 97 then .error (.panic "missing file for redirection")
      else
        let (rs, s) ← parseredirs f s
        .ok (redircmd tok q eq ++ rs, s)
    else .ok ([], s)

/-- `cmd->argv[argc] = q; cmd->eargv[argc] = eq`, and the same with null pointers. -/
def storable (maxargs argc : Nat) : Except Stop Unit :=
  if argc < maxargs then .ok () else .error .store

/-- The loop over words in `parseexec`, and what follows it. -/
def parsewords (maxargs : Nat) : Nat → List (Nat × Nat) → List Redir → Nat → Except Stop (Cmd × Nat)
  | 0, _, _, _ => .error .rounds
  | f + 1, argv, rs, s => do
    let (stop, s) ← peek t s [124, 41, 38, 59]
    if stop then
      storable maxargs argv.length
      .ok ((Cmd.exec argv).wrap rs, s)
    else
      let (tok, q, eq, s) ← gettoken t s
      if tok = 0 then
        storable maxargs argv.length
        .ok ((Cmd.exec argv).wrap rs, s)
      else if tok ≠ 97 then .error (.panic "syntax")
      else
        storable maxargs argv.length
        let argv := argv ++ [(q, eq)]
        if maxargs ≤ argv.length then .error (.panic "too many args")
        else
          let (rs', s) ← parseredirs t f s
          parsewords maxargs f argv (rs ++ rs') s

mutual

def parseline (maxargs : Nat) : Nat → Nat → Except Stop (Cmd × Nat)
  | 0, _ => .error .rounds
  | f + 1, s => do
    let (cmd, s) ← parsepipe maxargs f s
    let (cmd, s) ← parsebacks t f cmd s
    let (more, s) ← peek t s [59]
    if more then
      let (_, _, _, s) ← gettoken t s
      let (right, s) ← parseline maxargs f s
      .ok (.list cmd right, s)
    else .ok (cmd, s)

def parsepipe (maxargs : Nat) : Nat → Nat → Except Stop (Cmd × Nat)
  | 0, _ => .error .rounds
  | f + 1, s => do
    let (cmd, s) ← parseexec maxargs f s
    let (more, s) ← peek t s [124]
    if more then
      let (_, _, _, s) ← gettoken t s
      let (right, s) ← parsepipe maxargs f s
      .ok (.pipe cmd right, s)
    else .ok (cmd, s)

def parseblock (maxargs : Nat) : Nat → Nat → Except Stop (Cmd × Nat)
  | 0, _ => .error .rounds
  | f + 1, s => do
    let (opened, s) ← peek t s [40]
    if !opened then .error (.panic "parseblock")
    else
      let (_, _, _, s) ← gettoken t s
      let (cmd, s) ← parseline maxargs f s
      let (closed, s) ← peek t s [41]
      if !closed then .error (.panic "syntax - missing )")
      else
        let (_, _, _, s) ← gettoken t s
        let (rs, s) ← parseredirs t f s
        .ok (cmd.wrap rs, s)

def parseexec (maxargs : Nat) : Nat → Nat → Except Stop (Cmd × Nat)
  | 0, _ => .error .rounds
  | f + 1, s => do
    let (block, s) ← peek t s [40]
    if block then parseblock maxargs f s
    else
      let (rs, s) ← parseredirs t f s
      parsewords t maxargs f [] rs s

end

/-! ## `nulterminate` and `parsecmd` -/

def Text.buffer : Nat → UInt8 := fun i => t.chars.getD i 0

def terminate (buf : Nat → UInt8) (p : Nat) : Except Stop (Nat → UInt8) :=
  if p ≤ t.len then .ok (Function.update buf p 0) else .error .store

def nulterminate (buf : Nat → UInt8) : Cmd → Except Stop (Nat → UInt8)
  | .exec argv => argv.foldlM (fun buf a => terminate t buf a.2) buf
  | .redir cmd r => do
    let buf ← nulterminate buf cmd
    terminate t buf r.efile
  | .pipe left right | .list left right => do
    let buf ← nulterminate buf left
    nulterminate buf right
  | .back cmd => nulterminate buf cmd

/-- The command and the buffer after the call. -/
def parsecmd : Except Stop (Cmd × (Nat → UInt8)) := do
  let (cmd, s) ← parseline t MAXARGS (4 * t.len + 4) 0
  let (_, s) ← peek t s []
  if s ≠ t.len then .error (.panic "syntax")
  else
    let buf ← nulterminate t t.buffer cmd
    .ok (cmd, buf)

end

end Xv6.Shell
