import CS537.Shell.Commands
import CS537.Lib.Fgets

/-!
# Shell — `main`

The two loops of `main` in `P2B: Shell/mysh.c` over a stream of bytes. `Reply` comes by the
offset of the chunk that asks for it. Commands do not read the stream themselves. `handed`
records the strings `preprocess` gets from `main`, each with the offset of its chunk, and
`children` the children that were started.
-/

namespace CS537.Shell

inductive Mode where
  | interactive
  | batch
  deriving DecidableEq, Repr

/-- The state of the loop. `ended` says that the process has: by `exit`, or at a pointer
that is not set. -/
structure Session where
  mysh : Mysh
  handed : List (Nat × List UInt8)
  children : List Child
  ended : Bool
  deriving DecidableEq, Repr

namespace Session

def start : Session := { mysh := .start, handed := [], children := [], ended := false }

/-- A chunk that is given to `preprocess`, and what the shell does with the result. -/
def hand (s : Session) (reply : Reply) (off : Nat) (command : CString) : Session :=
  let step := runLine s.mysh command reply
  { mysh := step.mysh
    handed := s.handed ++ [(off, command.bytes)]
    children := s.children ++ step.child.toList
    ended := step.ended }

/-- `mysh> `. -/
def prompt (s : Session) : Session := { s with mysh := s.mysh.write (.text 1 "mysh> ") }

end Session

/-- `"\n"`. -/
def newlineWord : CString := .ofBuffer [newline]

/-- A round of the loop with the chunk in `command`. -/
def round (mode : Mode) (reply : Reply) (off : Nat) (chunk : List UInt8) (s : Session) : Session :=
  let command := CString.ofBuffer chunk
  match mode with
  | .interactive =>
      if command.bytes.length > 511 then
        { s with mysh := s.mysh.write (.text 2 "Command too long.\n") }
      else if command.strcmp newlineWord ≠ 0 then s.hand reply off command
      else s
  | .batch =>
      let s := { s with mysh := s.mysh.write (.echo command) }
      if command.bytes.length < 511 then s.hand reply off command else s

/-- The loop. It runs once for each chunk. -/
def mainLoop (mode : Mode) (replies : Nat → Reply) : Nat → Nat → List UInt8 → Session → Session
  | 0, _, _, s => s
  | fuel + 1, off, stream, s =>
      let s := if mode = .interactive then s.prompt else s
      match Fgets.fgets newline 512 stream with
      | none => s
      | some (chunk, rest) =>
          let s := round mode (replies off) off chunk s
          if s.ended then s else mainLoop mode replies fuel (off + chunk.length) rest s

/-- A session with the shell: the stream is standard input or the batch file. -/
def session (mode : Mode) (replies : Nat → Reply) (stream : List UInt8) : Session :=
  mainLoop mode replies (stream.length + 1) 0 stream .start

/-! ## The loop over the chunks -/

/-- A chunk and the prompt before it, once the shell has not ended. -/
def promptedRound (mode : Mode) (replies : Nat → Reply) (s : Session) (chunk : Nat × List UInt8) :
    Session :=
  if s.ended then s
  else round mode (replies chunk.1) chunk.1 chunk.2 (if mode = .interactive then s.prompt else s)

theorem foldl_ended {mode : Mode} {replies : Nat → Reply} {s : Session} (h : s.ended = true) :
    ∀ cs : List (Nat × List UInt8), cs.foldl (promptedRound mode replies) s = s
  | [] => rfl
  | c :: cs => by
      have hc : promptedRound mode replies s c = s := by rw [promptedRound, if_pos h]
      rw [List.foldl_cons, hc, foldl_ended h cs]

/-- The same session but for the prompt that no chunk follows. -/
def SameBut (s t : Session) : Prop :=
  s.mysh.stores = t.mysh.stores ∧ s.handed = t.handed ∧ s.children = t.children ∧ s.ended = t.ended

/-- The loop is the rounds of the chunks `fgets` gives. -/
theorem mainLoop_eq (mode : Mode) (replies : Nat → Reply) : ∀ (fuel off : Nat) (stream : List UInt8)
    (s : Session), s.ended = false →
    SameBut (mainLoop mode replies fuel off stream s)
      ((Fgets.chunks newline 512 fuel off stream).foldl (promptedRound mode replies) s)
  | 0, _, _, _, _ => ⟨rfl, rfl, rfl, rfl⟩
  | fuel + 1, off, stream, s, hs => by
      rw [mainLoop, Fgets.chunks]
      cases Fgets.fgets newline 512 stream with
      | none =>
          simp only [List.foldl_nil]
          split
          · exact ⟨rfl, rfl, rfl, rfl⟩
          · exact ⟨rfl, rfl, rfl, rfl⟩
      | some p =>
          obtain ⟨chunk, rest⟩ := p
          simp only [List.foldl_cons]
          have hround : promptedRound mode replies s (off, chunk) =
              round mode (replies off) off chunk (if mode = .interactive then s.prompt else s) := by
            rw [promptedRound, if_neg (by simp [hs])]
          rw [hround]
          generalize round mode (replies off) off chunk (if mode = .interactive then s.prompt else s) = t
          by_cases hended : t.ended = true
          · rw [if_pos hended, foldl_ended hended]
            exact ⟨rfl, rfl, rfl, rfl⟩
          · rw [if_neg hended]
            exact mainLoop_eq mode replies fuel _ rest t (by simpa using hended)

end CS537.Shell
