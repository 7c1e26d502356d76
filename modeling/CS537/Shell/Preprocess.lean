import CS537.Lib.Strtok

/-!
# Shell — `preprocess`

The globals of `P2B: Shell/mysh.c` and the parser. Strings are values here: a token is
a copy of its own, and what the shell rewrites in place, no other part of the shell
reads. A pointer that is not set, or an array read or written outside, ends the process;
a result `none` says so.
-/

namespace CS537.Shell

/-! ## State -/

/-- `struct cmdNode`. -/
structure CmdNode where
  aliasName : CString
  command : CString
  next : Option Nat
  deriving DecidableEq, Repr

/-- `argument_pck`. `argv` is the whole array. -/
structure ArgumentPck where
  argv : List (Option CString)
  argc : Nat
  isRedir : Bool
  isValid : Bool
  deriving DecidableEq, Repr

/-- What the shell prints: a fixed text on a descriptor, an alias, the line it read. -/
inductive Written where
  | text (fd : Nat) (s : String)
  | binding (aliasName command : CString)
  | echo (command : CString)
  deriving DecidableEq, Repr

/-- The process. `nodes` are the nodes `malloc` has returned, by address, and `stores`
the indices at which `memList` was written. -/
structure Mysh where
  nodes : List CmdNode
  head : Option Nat
  currNode : Option Nat
  numFreePtr : Nat
  stores : List Nat
  output : List Written
  deriving DecidableEq, Repr

namespace Mysh

/-- The process when `main` begins. -/
def start : Mysh :=
  { nodes := [], head := none, currNode := none, numFreePtr := 0, stores := [], output := [] }

/-- `memList[numFreePtr++]`. -/
def track (m : Mysh) : Mysh :=
  { m with numFreePtr := m.numFreePtr + 1, stores := m.stores ++ [m.numFreePtr] }

/-- `memList[numFreePtr++]`, once a round. -/
def trackTimes : Nat → Mysh → Mysh
  | 0, m => m
  | n + 1, m => trackTimes n m.track

def write (m : Mysh) (w : Written) : Mysh := { m with output := m.output ++ [w] }

end Mysh

/-! ## Bytes and words of the source -/

/-- `'\t'`. -/
def tab : UInt8 := 9

/-- `'\n'`. -/
def newline : UInt8 := 10

/-- `' '`. -/
def space : UInt8 := 32

/-- `'>'`. -/
def gt : UInt8 := 62

/-- `">"`. -/
def gtWord : CString := .ofBuffer [gt]

/-- `"exit"`. -/
def exitWord : CString := .ofBuffer [101, 120, 105, 116]

/-- `"alias"`. -/
def aliasWord : CString := .ofBuffer [97, 108, 105, 97, 115]

/-- `"unAlias"`. -/
def unAliasWord : CString := .ofBuffer [117, 110, 65, 108, 105, 97, 115]

/-! ## The scan of the line -/

/-- The line as it stands in the buffer, `isRedir`, and whether a second `>` ended the
loop. -/
structure Scanned where
  command : List UInt8
  isRedir : Bool
  misformatted : Bool
  deriving DecidableEq, Repr

/-- The loop from the last byte of the line to the first. -/
def scan : List UInt8 → Scanned
  | [] => { command := [], isRedir := false, misformatted := false }
  | b :: bs =>
      let s := scan bs
      if s.misformatted then { s with command := b :: s.command }
      else if b = gt then
        if s.isRedir then { s with command := b :: s.command, misformatted := true }
        else { s with command := b :: s.command, isRedir := true }
      else if b = tab then { s with command := space :: s.command }
      else if b = newline then { s with command := 0 :: s.command }
      else { s with command := b :: s.command }

/-! ## The tokens -/

/-- `malloc(sizeof(char*) * 100)`, taken to be zero. -/
def newArgv : List (Option CString) := List.replicate 100 none

/-- The loop that puts the pieces into `cmd`. -/
def storePieces : List CString → Nat → List (Option CString) → Option (List (Option CString) × Nat)
  | [], argc, cmd => some (cmd, argc)
  | piece :: pieces, argc, cmd =>
      if argc < cmd.length then storePieces pieces (argc + 1) (cmd.set argc (some piece)) else none

/-! ## Redirection -/

/-- How the rewriting of the tokens ends; `stores` counts the writes to `memList`. -/
inductive Redirected where
  | crashed (stores : Nat)
  | misformatted (stores : Nat)
  | parsed (cmd : List (Option CString)) (argc : Nat) (stores : Nat)
  deriving DecidableEq, Repr

/-- The loop over the tokens. -/
def redirectLoop : Nat → Nat → List (Option CString) → Nat → Nat → Redirected
  | 0, _, _, _, stores => .crashed stores
  | fuel + 1, i, cmd, argc, stores =>
      if i < argc then
        match cmd.getD i none with
        | none => .crashed stores
        | some piece =>
            if gt ∉ piece.bytes then redirectLoop fuel (i + 1) cmd argc stores
            else if piece.strcmp gtWord = 0 then
              if i + 2 ≠ argc then .misformatted stores
              else redirectLoop fuel (i + 1) (cmd.set i (cmd.getD (i + 1) none)) (argc - 1) stores
            else if piece.bytes.head? = some gt then
              redirectLoop fuel (i + 1) (cmd.set i (some piece.tail)) argc stores
            else if piece.bytes.getLast? = some gt then
              redirectLoop fuel (i + 1) (cmd.set i (some piece.dropLast)) argc stores
            else if i + 1 < cmd.length then
              let lastPiece := piece.strtok gt
              let filename := lastPiece.bind fun p => p.2.strtok gt
              redirectLoop fuel (i + 1)
                ((cmd.set i (lastPiece.map Prod.fst)).set (i + 1) (filename.map Prod.fst))
                (argc + 1) (stores + 1)
            else .crashed (stores + 1)
      else .parsed cmd argc stores

/-- The part of `preprocess` for a line with a `>`. The loop runs at most once for each
entry of the array. -/
def redirect (cmd : List (Option CString)) (argc : Nat) : Redirected :=
  match cmd.getD (argc - 1) none, cmd.getD 0 none with
  | some last, some first =>
      if last.strcmp gtWord ≠ 0 ∧ first.strcmp gtWord ≠ 0 then
        redirectLoop (cmd.length + 2) 0 cmd argc 0
      else .misformatted 0
  | _, _ => .crashed 0

/-! ## The parser -/

/-- The process after `preprocess`, the line as the scan left it, and the result. -/
structure Parsed where
  mysh : Mysh
  command : List UInt8
  result : Option ArgumentPck
  deriving DecidableEq, Repr

/-- The result of a line that is refused. `argv` and `argc` are not set on this path. -/
def invalid (isRedir : Bool) : ArgumentPck :=
  { argv := [], argc := 0, isRedir := isRedir, isValid := false }

/-- `Redirection misformatted.` -/
def misformatted : Written := .text 2 "Redirection misformatted.\n"

/-- The end of `preprocess`: a line whose first token is not set is not valid. -/
def finish (cmd : List (Option CString)) (argc : Nat) (isRedir : Bool) : ArgumentPck :=
  { argv := cmd, argc := argc, isRedir := isRedir, isValid := (cmd.getD 0 none).isSome }

def preprocess (m : Mysh) (command : CString) : Parsed :=
  let m := m.track
  let m := if command.bytes.length = 0 then m.write (.text 1 "\nmysh> ") else m
  let s := scan command.bytes
  if s.misformatted then
    { mysh := m.write misformatted, command := s.command, result := some (invalid s.isRedir) }
  else
    let dupLine := CString.ofBuffer s.command
    let pieces := CString.strtokAll space dupLine.bytes.length dupLine
    let m := Mysh.trackTimes pieces.length m.track
    match storePieces pieces 0 newArgv with
    | none => { mysh := m, command := s.command, result := none }
    | some (cmd, argc) =>
        if s.isRedir then
          match redirect cmd argc with
          | .crashed stores =>
              { mysh := m.trackTimes stores, command := s.command, result := none }
          | .misformatted stores =>
              { mysh := (m.trackTimes stores).write misformatted, command := s.command
                result := some (invalid s.isRedir) }
          | .parsed cmd argc stores =>
              { mysh := m.trackTimes stores, command := s.command
                result := some (finish cmd argc s.isRedir) }
        else { mysh := m, command := s.command, result := some (finish cmd argc s.isRedir) }

end CS537.Shell
