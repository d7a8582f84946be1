import Xv6.Bytes
import Xv6.Hoare

/-! The parser of user/sh.c. The command line stands in a buffer, with its terminating NUL at `es`, and
a pointer is an offset in the buffer. malloc succeeds. -/
namespace Xv6.Sh
open Bytes Hoare

def maxArgs : ℕ := 10
def whitespace : List UInt8 := [32, 9, 13, 10, 11]
-- <|>&;()
def symbols : List UInt8 := [60, 124, 62, 38, 59, 40, 41]

def strchr (s : List UInt8) (c : UInt8) : Bool := s.contains c

/-- A word of the line: argv[i] and eargv[i], or file and efile. -/
structure Word where
  q : ℕ
  eq : ℕ
  deriving DecidableEq

inductive Cmd where
  | exec (argv : List Word)
  | redir (cmd : Cmd) (file : Word) (mode fd : ℕ)
  | pipe (left right : Cmd)
  | list (left right : Cmd)
  | back (cmd : Cmd)

inductive Panic where
  | missingFile | parseblock | missingParen | badSyntax | tooManyArgs
  -- the recursion has not ended yet
  | fuel
  deriving DecidableEq

/-- The state is `*ps`. -/
abbrev P := Prog ℕ Panic

/-- At most `n` turns of while(c(*s)) s++; -/
def scan (c : UInt8 → Bool) (buf : ByteMem) : ℕ → ℕ → ℕ
  | 0, s => s
  | n+1, s => if c (buf s) then scan c buf n (s+1) else s

section Line
variable (buf : ByteMem) (es : ℕ)

def skipSpace (s : ℕ) : ℕ := scan (strchr whitespace) buf (es-s) s

def wordEnd (s : ℕ) : ℕ := scan (fun c => !strchr whitespace c && !strchr symbols c) buf (es-s) s

def token (s : ℕ) : UInt8 × ℕ :=
  if buf s = 0 then (0, s)
  -- |();&<
  else if buf s ∈ [124, 40, 41, 59, 38, 60] then (buf s, s+1)
  else if buf s = 62 then if buf (s+1) = 62 then (43, s+2) else (62, s+1)
  else (97, wordEnd buf es s)

/-- The token, and where it begins and ends. -/
def gettoken : P (UInt8 × Word) := fun s =>
  let q := skipSpace buf es s
  let (ret, eq) := token buf es q
  .ok ((ret, ⟨q, eq⟩), skipSpace buf es eq)

def peek (toks : List UInt8) : P Bool := fun s =>
  let s := skipSpace buf es s
  .ok (decide (buf s ≠ 0) && strchr toks (buf s), s)

-- O_RDONLY, O_WRONLY|O_CREATE|O_TRUNC and O_WRONLY|O_CREATE
def redircmd (tok : UInt8) (file : Word) (cmd : Cmd) : Cmd :=
  if tok = 60 then .redir cmd file 0 0
  else if tok = 62 then .redir cmd file 0x601 1
  else if tok = 43 then .redir cmd file 0x201 1
  else cmd

/-- The redirections that stand at `*ps`. The result wraps them around a command. -/
def parseredirs : ℕ → (Cmd → Cmd) → P (Cmd → Cmd)
  | 0, _ => throw .fuel
  | fuel+1, wrap => do
    if ← peek buf es [60, 62] then
      let (tok, _) ← gettoken buf es
      let (ret, file) ← gettoken buf es
      if ret ≠ 97 then throw .missingFile
      else parseredirs fuel (redircmd tok file ∘ wrap)
    else return wrap

/-- The loop of parseexec. `wrap` takes the execcmd to `ret`. -/
def parseargs : ℕ → List Word → (Cmd → Cmd) → P Cmd
  | 0, _, _ => throw .fuel
  | fuel+1, argv, wrap => do
    if ← peek buf es [124, 41, 38, 59] then return wrap (.exec argv)
    else
      let (tok, w) ← gettoken buf es
      if tok = 0 then return wrap (.exec argv)
      else if tok ≠ 97 then throw .badSyntax
      else if argv.length+1 ≥ maxArgs then throw .tooManyArgs
      else do
        let wrap ← parseredirs buf es fuel wrap
        parseargs fuel (argv ++ [w]) wrap

def parsebacks : ℕ → Cmd → P Cmd
  | 0, _ => throw .fuel
  | fuel+1, cmd => do
    if ← peek buf es [38] then
      let _ ← gettoken buf es
      parsebacks fuel (.back cmd)
    else return cmd

mutual

def parseline : ℕ → P Cmd
  | 0 => throw .fuel
  | fuel+1 => do
    let cmd ← parsepipe fuel
    let cmd ← parsebacks buf es fuel cmd
    if ← peek buf es [59] then
      let _ ← gettoken buf es
      let rest ← parseline fuel
      return .list cmd rest
    else return cmd

def parsepipe : ℕ → P Cmd
  | 0 => throw .fuel
  | fuel+1 => do
    let cmd ← parseexec fuel
    if ← peek buf es [124] then
      let _ ← gettoken buf es
      let rest ← parsepipe fuel
      return .pipe cmd rest
    else return cmd

def parseblock : ℕ → P Cmd
  | 0 => throw .fuel
  | fuel+1 => do
    if ← peek buf es [40] then
      let _ ← gettoken buf es
      let cmd ← parseline fuel
      if ← peek buf es [41] then
        let _ ← gettoken buf es
        let wrap ← parseredirs buf es fuel id
        return wrap cmd
      else throw .missingParen
    else throw .parseblock

def parseexec : ℕ → P Cmd
  | 0 => throw .fuel
  | fuel+1 => do
    if ← peek buf es [40] then parseblock fuel
    else do
      let wrap ← parseredirs buf es fuel id
      parseargs buf es fuel [] wrap

end

end Line

def nulterminate : Cmd → ByteMem → ByteMem
  | .exec argv, buf => argv.foldl (fun buf w => Function.update buf w.eq 0) buf
  | .redir cmd file _ _, buf => Function.update (nulterminate cmd buf) file.eq 0
  | .pipe left right, buf => nulterminate right (nulterminate left buf)
  | .list left right, buf => nulterminate right (nulterminate left buf)
  | .back cmd, buf => nulterminate cmd buf

def bufOf (line : List UInt8) : ByteMem := fun k => line.getD k 0

def strlen (line : List UInt8) : ℕ := (line.takeWhile (fun c => decide (c ≠ 0))).length

def parsecmd (fuel : ℕ) (line : List UInt8) : Except Panic (Cmd × ByteMem) := do
  let (cmd, s) ← parseline (bufOf line) (strlen line) fuel 0
  let (_, s) ← peek (bufOf line) (strlen line) [] s
  if s ≠ strlen line then throw .badSyntax
  else return (cmd, nulterminate cmd (bufOf line))

end Xv6.Sh
