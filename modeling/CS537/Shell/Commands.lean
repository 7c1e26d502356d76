import CS537.Shell.Preprocess

/-!
# Shell — the alias list and the commands

The functions of `P2B: Shell/mysh.c` after the parser, up to `main`. The loops over the
alias list carry a fuel, the number of nodes there are; without it left, or at a pointer
that is not set, the result is `none`. `Reply` is what the system answers when a command
is run: whether `fork` succeeds, and which files `fopen` opens for writing.
-/

namespace CS537.Shell

namespace Mysh

/-- The node at an address with its link rewritten. -/
def setNext (m : Mysh) (a : Nat) (next : Option Nat) : Option Mysh :=
  match m.nodes[a]? with
  | none => none
  | some n => some { m with nodes := m.nodes.set a { n with next := next } }

/-! ## The alias list -/

/-- The loop of `addAlias` to the last node. -/
def lastNode (m : Mysh) : Nat → Nat → Option Nat
  | 0, _ => none
  | fuel + 1, curr =>
      match m.nodes[curr]? with
      | none => none
      | some node =>
          match node.next with
          | some next => lastNode m fuel next
          | none => some curr

def addAlias (m : Mysh) (aliasName : Option CString) (command : Option CString) :
    Option (Mysh × Nat) :=
  match command with
  | none => some (m, 0)
  | some command =>
      match aliasName with
      | none => some (m.track, 0)
      | some aliasName =>
          let newNode : CmdNode := { aliasName := aliasName, command := command, next := none }
          let addr := m.nodes.length
          let m := { m.track with nodes := m.nodes ++ [newNode] }
          match m.head with
          | some head => do
              let last ← m.lastNode m.nodes.length head
              let m ← { m with currNode := some last }.setNext last (some addr)
              return (m, 1)
          | none => some ({ m with head := some addr }, 1)

/-- The loop of `unAlias`: `prevNode`, `currNode` and whether the name was found. -/
def unAliasLoop (m : Mysh) (aliasName : CString) :
    Nat → Option Nat → Nat → Option (Option Nat × Nat × Bool)
  | 0, _, _ => none
  | fuel + 1, prev, curr =>
      match m.nodes[curr]? with
      | none => none
      | some node =>
          if node.aliasName.strcmp aliasName ≠ 0 then
            match node.next with
            | some next => unAliasLoop m aliasName fuel (some curr) next
            | none => some (prev, curr, false)
          else some (prev, curr, true)

def unAlias (m : Mysh) (aliasName : Option CString) : Option (Mysh × Nat) :=
  let m := { m with currNode := m.head }
  match aliasName with
  | none => some (m, 0)
  | some aliasName =>
      match m.head with
      | none => some (m, 0)
      | some head => do
          let (prev, curr, found) ← m.unAliasLoop aliasName m.nodes.length none head
          let m := { m with currNode := some curr }
          if found then
            let node ← m.nodes[curr]?
            if some curr = m.head then return ({ m with head := node.next }, 1)
            else
              let prev ← prev
              let m ← m.setNext prev node.next
              return (m, 1)
          else return (m, 0)

/-- The loop of `detectAlias`: `currNode` and whether the name was found. -/
def detectLoop (m : Mysh) (aliasName : CString) : Nat → Nat → Option (Nat × Bool)
  | 0, _ => none
  | fuel + 1, curr =>
      match m.nodes[curr]? with
      | none => none
      | some node =>
          if node.aliasName.strcmp aliasName ≠ 0 then
            match node.next with
            | none => some (curr, false)
            | some next => detectLoop m aliasName fuel next
          else some (curr, true)

def detectAlias (m : Mysh) (aliasName : Option CString) : Option (Mysh × Option CString) :=
  match aliasName with
  | none => some (m, none)
  | some aliasName =>
      match m.head with
      | none => some ({ m with currNode := none }, none)
      | some head => do
          let (curr, found) ← m.detectLoop aliasName m.nodes.length head
          let m := { m with currNode := some curr }
          if found then
            let node ← m.nodes[curr]?
            return (m, some node.command)
          else return (m, none)

/-- The loop of `executeAlias` that prints every alias. -/
def listLoop (m : Mysh) : Nat → Option Nat → List Written → Option (List Written)
  | _, none, printed => some printed
  | 0, some _, _ => none
  | fuel + 1, some curr, printed =>
      match m.nodes[curr]? with
      | none => none
      | some node =>
          listLoop m fuel node.next (printed ++ [.binding node.aliasName node.command])

end Mysh

/-! ## The built-in commands -/

/-- The loop of `concat` that copies. -/
def concatLoop : List (Option CString) → Option CString
  | [] => some (.ofBuffer [])
  | none :: _ => none
  | [some s] => some s
  | some s :: rest => (concatLoop rest).map fun t => s.append ((CString.ofBuffer [space]).append t)

def concat (m : Mysh) (size : Nat) (strings : List (Option CString)) : Option (Mysh × CString) :=
  (concatLoop ((strings.take size).drop 2)).map fun final => (m.track.track, final)

/-- `alias: Too dangerous to alias that.` -/
def tooDangerous : Written := .text 2 "alias: Too dangerous to alias that.\n"

/-- `unAlias: Incorrect number of arguments.` -/
def incorrectNumber : Written := .text 2 "unAlias: Incorrect number of arguments.\n"

def executeAlias (m : Mysh) (arg : ArgumentPck) : Option Mysh :=
  let count := arg.argc
  if count = 1 then
    (m.listLoop m.nodes.length m.head []).map fun printed => { m with output := m.output ++ printed }
  else
    match arg.argv.getD 1 none with
    | none => none
    | some name =>
        if name.strcmp unAliasWord = 0 ∨ name.strcmp aliasWord = 0 ∨ name.strcmp exitWord = 0 then
          some (m.write tooDangerous)
        else if count = 2 then do
          let (m, command) ← m.detectAlias (some name)
          match command with
          | some command => return m.write (.binding name command)
          | none => return m
        else do
          let (m, command) ← concat m count arg.argv
          let (m, found) ← m.detectAlias (some name)
          match found with
          | none =>
              let (m, _) ← m.addAlias (some name) (some command)
              return m
          | some _ =>
              let (m, _) ← m.unAlias (some name)
              let (m, _) ← m.addAlias (some name) (some command)
              return m

def executeunAlias (m : Mysh) (arg : ArgumentPck) : Option Mysh :=
  if arg.argc = 2 then (m.unAlias (arg.argv.getD 1 none)).map Prod.fst
  else some (m.write incorrectNumber)

/-! ## Running a command -/

/-- The answers of the system. -/
structure Reply where
  forks : Bool
  opens : CString → Bool

/-- The child: its copy of the process, and the path and the argument array it gives to
`execv`, if it comes to it. -/
structure Child where
  mysh : Mysh
  execv : Option (CString × List (Option CString))
  deriving DecidableEq, Repr

/-- What a line does to the shell, and the child it starts. -/
structure Step where
  mysh : Mysh
  ended : Bool
  child : Option Child
  deriving DecidableEq, Repr

/-- The loop that appends the arguments, `i` from 1 to `arg.argc`. -/
def appendArgs (arg : ArgumentPck) : Nat → Nat → ArgumentPck → Option ArgumentPck
  | 0, _, aliasArg => some aliasArg
  | rounds + 1, i, aliasArg =>
      if aliasArg.argc < aliasArg.argv.length ∧ i < arg.argv.length then
        appendArgs arg rounds (i + 1)
          { aliasArg with
            argv := aliasArg.argv.set aliasArg.argc (arg.argv.getD i none)
            argc := aliasArg.argc + 1 }
      else none

/-- The child from the check for an alias on. -/
def execAlias (m : Mysh) (arg : ArgumentPck) : Option Child :=
  match m.detectAlias (arg.argv.getD 0 none) with
  | none => none
  | some (m, some aliased) =>
      let parsed := preprocess m aliased
      let execv := do
        let aliasArg ← parsed.result
        let aliasArg ← appendArgs arg arg.argc 1 aliasArg
        let inString ← aliasArg.argv.getD 0 none
        return (inString, aliasArg.argv)
      some { mysh := parsed.mysh, execv := execv }
  | some (m, none) =>
      some { mysh := m, execv := (arg.argv.getD 0 none).map fun path => (path, arg.argv) }

/-- `Error: Cannot write to file %s.` -/
def cannotWrite : Written := .text 2 "Error: Cannot write to file %s.\n"

/-- The child. -/
def runChild (m : Mysh) (arg : ArgumentPck) (reply : Reply) : Option Child :=
  if arg.isRedir then
    match arg.argv.getD (arg.argc - 1) none with
    | none => none
    | some filename =>
        if reply.opens filename then
          execAlias m { arg with argv := arg.argv.set (arg.argc - 1) none }
        else some { mysh := m.write cannotWrite, execv := none }
  else execAlias m arg

def executeCommand (m : Mysh) (arg : ArgumentPck) (reply : Reply) : Step :=
  match arg.argv.getD 0 none with
  | none => { mysh := m, ended := true, child := none }
  | some name =>
      if name.strcmp exitWord = 0 then { mysh := m, ended := true, child := none }
      else if name.strcmp unAliasWord = 0 then
        match executeunAlias m arg with
        | none => { mysh := m, ended := true, child := none }
        | some m => { mysh := m, ended := false, child := none }
      else if name.strcmp aliasWord = 0 then
        match executeAlias m arg with
        | none => { mysh := m, ended := true, child := none }
        | some m => { mysh := m, ended := false, child := none }
      else if reply.forks then { mysh := m, ended := false, child := runChild m arg reply }
      else { mysh := m.write (.text 1 "mysh: fork failed\n"), ended := false, child := none }

/-- A line that is handed to the parser. -/
def runLine (m : Mysh) (command : CString) (reply : Reply) : Step :=
  let p := preprocess m command
  match p.result with
  | none => { mysh := p.mysh, ended := true, child := none }
  | some arg =>
      if arg.isValid then executeCommand p.mysh arg reply
      else { mysh := p.mysh, ended := false, child := none }

end CS537.Shell
