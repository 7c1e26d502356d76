import CS537.Lib.Ctype
import CS537.Lib.Fgets

/-!
# Utilities — `my-look`

`filter`, `compare` and `main` of `P1: UNIX Utilities/my-look.c`, in the C locale. What a run
prints is the bytes it writes to standard output. `none` is what C leaves undefined: a store past
the end of a buffer, or a string that is not there. With `-f` a line is read into 260 bytes, from
standard input into 100, so there a longer line is matched in pieces.
-/

namespace CS537.Utilities

open Fgets

def newline : UInt8 := 10

/-- The bytes of a text of the program. -/
def text (s : String) : List UInt8 := s.toList.map fun c => UInt8.ofNat c.toNat

/-- How a program ends: what it has printed and its exit status. -/
structure Exit where
  printed : List UInt8
  status : Nat
  deriving DecidableEq, Repr

/-- The characters of a line before its newline. -/
def content (l : List UInt8) : List UInt8 := l.takeWhile (· ≠ newline)

theorem content_append {w : List UInt8} (hw : newline ∉ w) : content (w ++ [newline]) = w := by
  rw [content, List.takeWhile_append_of_pos]
  · simp
  · intro b hb
    simpa using ne_of_mem_of_not_mem hb hw

theorem content_eq_self {l : List UInt8} (hl : newline ∉ l) : content l = l := by
  apply List.takeWhile_eq_self_iff.mpr
  intro b hb
  simpa using ne_of_mem_of_not_mem hb hl

/-- A line is its characters, with the newline if it ends. -/
theorem content_cases {l : List UInt8} (hl : IsLine newline l) :
    (Ends newline l ∧ l = content l ++ [newline]) ∨ (¬ Ends newline l ∧ l = content l) := by
  obtain ⟨w, b, rfl⟩ := (List.eq_nil_or_concat' l).resolve_left hl.1
  have hw : newline ∉ w := by simpa using hl.2
  by_cases hb : b = newline
  · subst hb
    exact Or.inl ⟨List.getLast?_concat, by rw [content_append hw]⟩
  · refine Or.inr ⟨fun h => hb ?_, (content_eq_self ?_).symm⟩
    · rw [Ends, List.getLast?_concat] at h
      exact Option.some.inj h
    · rw [List.mem_append, List.mem_singleton, not_or]
      exact ⟨hw, Ne.symm hb⟩

/-- A line that does not end is its characters. -/
theorem content_of_not_ends {l : List UInt8} (hl : IsLine newline l) (hend : ¬ Ends newline l) :
    content l = l :=
  ((content_cases hl).resolve_left fun h => hend h.1).2.symm

theorem length_le_content {l : List UInt8} (hl : IsLine newline l) :
    l.length ≤ (content l).length + 1 := by
  rcases content_cases hl with ⟨_, h⟩ | ⟨_, h⟩
  · rw [h, content_append]
    · simp
    · rw [h] at hl
      simpa using hl.2
  · rw [← h]
    exact Nat.le_succ _

namespace Look

open CString

/-! ## `filter` -/

/-- A buffer of 260 bytes. -/
structure Buffer where
  bytes : List UInt8
  full : bytes.length = 260
  deriving DecidableEq, Repr

/-- A buffer of zeros. -/
def Buffer.zeros : Buffer := { bytes := List.replicate 260 0, full := List.length_replicate }

/-- `res[j] = c`. -/
def Buffer.store (res : Buffer) (j : Nat) (c : UInt8) : Option Buffer :=
  if j < 260 then some ⟨res.bytes.set j c, by rw [List.length_set, res.full]⟩ else none

/-- The loop of `filter`, with the rest of `input`, and the terminator after it. -/
def filterLoop : List UInt8 → Nat → Buffer → Option Buffer
  | [], j, res => res.store j 0
  | c :: input, j, res =>
      if isalpha c || isdigit c then (res.store j c).bind (filterLoop input (j + 1))
      else filterLoop input j res

def filter (input : CString) (res : Buffer) : Option Buffer := filterLoop input.bytes 0 res

/-! ## `compare` -/

/-- The state of the loops of `compare`: the buffer of the filtered word, and what is printed. -/
structure Loop where
  filteredWords : Buffer
  printed : List UInt8
  deriving DecidableEq, Repr

/-- The body of the two loops, with what `fgets` put in `input`. -/
def round (filteredPrefix : CString) (prefixLen : Nat) (s : Loop) (chunk : List UInt8) :
    Option Loop :=
  let input := ofBuffer chunk
  (filter input s.filteredWords).map fun filteredWords =>
    let result := filteredPrefix.strncasecmp (ofBuffer filteredWords.bytes) prefixLen
    { filteredWords := filteredWords
      printed := if result = 0 then s.printed ++ input.bytes else s.printed }

/-- What `compare` prints. The two buffers come with what the stack holds. -/
def compare (fp stdin : List UInt8) (pre : CString) (flag : Int)
    (filteredPrefix filteredWords : Buffer) : Option (List UInt8) :=
  (filter pre filteredPrefix).bind fun filteredPrefix =>
    let filteredPrefix := ofBuffer filteredPrefix.bytes
    let prefixLen := filteredPrefix.bytes.length
    let start : Loop := { filteredWords := filteredWords, printed := [] }
    if flag = 1 then
      ((pieces newline 260 fp).foldlM (round filteredPrefix prefixLen) start).map Loop.printed
    else
      ((pieces newline 100 stdin).foldlM (round filteredPrefix prefixLen) start).map Loop.printed

/-! ## `main` -/

/-- An option as `getopt` gives it. -/
inductive Opt where
  | V
  | h
  | f (optarg : String)
  | unknown
  deriving DecidableEq, Repr

/-- What the options leave: `fp` is a stream once `fFlag` is set. -/
structure Options where
  fFlag : Int
  fp : List UInt8
  deriving DecidableEq, Repr

def invalidCommandLine : Exit := { printed := text "my-look: invalid command line\n", status := 1 }

/-- The loop over the options, with the text `printHelpInfo` prints. -/
def parse (fopen : String → Option (List UInt8)) (helpInfo : List UInt8) :
    List Opt → Options → Except Exit Options
  | [], s => .ok s
  | .V :: _, _ => .error { printed := text "my-look from CS537 Spring 2022\n", status := 0 }
  | .h :: _, _ => .error { printed := helpInfo, status := 0 }
  | .f filePath :: opts, _ =>
      match fopen filePath with
      | none => .error { printed := text "my-look: cannot open file\n", status := 1 }
      | some fp => parse fopen helpInfo opts { fFlag := 1, fp := fp }
  | .unknown :: _, _ => .error invalidCommandLine

/-- `main`, with `argv[optind]`. -/
def main (fopen : String → Option (List UInt8)) (helpInfo stdin : List UInt8) (argc : Nat)
    (opts : List Opt) (arg : Option CString) (filteredPrefix filteredWords : Buffer) :
    Option Exit :=
  if argc < 2 then some invalidCommandLine
  else
    match parse fopen helpInfo opts { fFlag := 0, fp := [] } with
    | .error e => some e
    | .ok s =>
        arg.bind fun pre =>
          (compare s.fp stdin pre s.fFlag filteredPrefix filteredWords).map fun printed =>
            { printed := printed, status := 0 }

/-! ## What `filter` leaves -/

/-- The letters and digits of a text. -/
def letters (s : List UInt8) : List UInt8 := s.filter fun c => isalpha c || isdigit c

theorem letters_length_le (s : List UInt8) : (letters s).length ≤ s.length :=
  List.length_filter_le _ _

theorem letters_noNul {s : List UInt8} (h : 0 ∉ s) : 0 ∉ letters s :=
  fun hm => h (List.mem_of_mem_filter hm)

theorem store_spec (res : Buffer) {j : Nat} (hj : j < 260) (c : UInt8) :
    ∃ res', res.store j c = some res' ∧
      res'.bytes = res.bytes.take j ++ c :: res.bytes.drop (j + 1) := by
  rw [Buffer.store, if_pos hj]
  refine ⟨_, rfl, ?_⟩
  show res.bytes.set j c = _
  rw [List.set_eq_take_append_cons_drop, if_pos (by rw [res.full]; exact hj)]

/-- The first `j` bytes stay, the letters and digits of what is left come after them, and then
the terminator. -/
theorem filterLoop_spec : ∀ (input : List UInt8) {j : Nat} (res : Buffer),
    j + (letters input).length < 260 →
    ∃ res' rest, filterLoop input j res = some res' ∧
      res'.bytes = res.bytes.take j ++ (letters input ++ 0 :: rest)
  | [], j, res, h => by
      obtain ⟨res', hres, hbytes⟩ := store_spec res (by simpa [letters] using h : j < 260) 0
      exact ⟨res', _, hres, hbytes⟩
  | c :: input, j, res, h => by
      rw [filterLoop]
      by_cases hc : (isalpha c || isdigit c) = true
      · have hcons : letters (c :: input) = c :: letters input := List.filter_cons_of_pos hc
        rw [hcons, List.length_cons] at h
        obtain ⟨res₁, hres₁, hbytes₁⟩ := store_spec res (show j < 260 by omega) c
        obtain ⟨res', rest, hres', hbytes'⟩ := filterLoop_spec input (j := j + 1) res₁ (by omega)
        have hlen : (res.bytes.take j).length = j := by
          rw [List.length_take, res.full]
          omega
        have htake : res₁.bytes.take (j + 1) = res.bytes.take j ++ [c] := by
          rw [hbytes₁, List.take_append, hlen, List.take_take, Nat.add_sub_cancel_left]
          simp
        refine ⟨res', rest, ?_, ?_⟩
        · rw [if_pos hc, hres₁]
          exact hres'
        · rw [hbytes', htake, hcons, List.append_assoc]
          rfl
      · have hcons : letters (c :: input) = letters input := List.filter_cons_of_neg hc
        rw [if_neg hc, hcons]
        rw [hcons] at h
        exact filterLoop_spec input res h

/-- `filter` leaves the letters and digits if they fit. -/
theorem filter_spec (input : CString) (res : Buffer) (h : input.bytes.length ≤ 259) :
    ∃ res', filter input res = some res' ∧ (ofBuffer res'.bytes).bytes = letters input.bytes := by
  have hle := letters_length_le input.bytes
  obtain ⟨res', rest, hres, hbytes⟩ := filterLoop_spec input.bytes (j := 0) res (by omega)
  refine ⟨res', hres, ?_⟩
  rw [hbytes, List.take_zero, List.nil_append,
    ofBuffer_terminated (letters_noNul input.noNul)]

/-! ## What `compare` prints -/

/-- The letters and digits of the line begin with those of the string, but for the case. -/
def Begins (pre l : List UInt8) : Prop :=
  (letters pre).map tolower <+: (letters l).map tolower

instance (pre l : List UInt8) : Decidable (Begins pre l) := inferInstanceAs (Decidable (_ <+: _))

/-- A chunk without a NUL byte is printed just if it begins with the string. -/
theorem round_spec {filteredPrefix pre : CString} (hpre : filteredPrefix.bytes = letters pre.bytes)
    (s : Loop) {chunk : List UInt8} (hfit : chunk.length ≤ 259) (hno : 0 ∉ chunk) :
    ∃ filteredWords, round filteredPrefix filteredPrefix.bytes.length s chunk =
      some { filteredWords := filteredWords
             printed := s.printed ++ if Begins pre.bytes chunk then chunk else [] } := by
  have hinput : (ofBuffer chunk).bytes = chunk := ofBuffer_bytes hno
  obtain ⟨words, hfilter, hwords⟩ :=
    filter_spec (ofBuffer chunk) s.filteredWords (by rw [hinput]; exact hfit)
  have hresult : filteredPrefix.strncasecmp (ofBuffer words.bytes) filteredPrefix.bytes.length = 0 ↔
      Begins pre.bytes chunk := by
    rw [strncasecmp_eq_zero, hpre, hwords, hinput, Begins]
  refine ⟨words, ?_⟩
  rw [round, hfilter]
  simp only [Option.map_some, hinput, hresult]
  by_cases h : Begins pre.bytes chunk
  · rw [if_pos h, if_pos h]
  · rw [if_neg h, if_neg h, List.append_nil]

/-- The loop prints the chunks that begin with the string. -/
theorem rounds_spec {filteredPrefix pre : CString}
    (hpre : filteredPrefix.bytes = letters pre.bytes) : ∀ (cs : List (List UInt8)) (s : Loop),
    (∀ c ∈ cs, c.length ≤ 259 ∧ 0 ∉ c) →
    (cs.foldlM (round filteredPrefix filteredPrefix.bytes.length) s).map Loop.printed =
      some (s.printed ++ (cs.filter fun c => Begins pre.bytes c).flatten)
  | [], s, _ => by simp
  | c :: cs, s, h => by
      obtain ⟨hfit, hno⟩ := h c List.mem_cons_self
      obtain ⟨words, hround⟩ := round_spec hpre s hfit hno
      rw [List.foldlM_cons, hround]
      refine (rounds_spec hpre cs _ fun x hx => h x (List.mem_cons_of_mem c hx)).trans ?_
      by_cases hc : Begins pre.bytes c
      · rw [if_pos hc, List.filter_cons_of_pos (by simpa using hc), List.flatten_cons,
          List.append_assoc]
      · rw [if_neg hc, List.filter_cons_of_neg (by simpa using hc), List.append_nil]

/-- The stream has no NUL byte, and none of its lines is too long for the buffers. -/
def Readable (stream : List UInt8) : Prop :=
  ∀ l ∈ lines newline stream, (content l).length ≤ 258 ∧ 0 ∉ l

instance (stream : List UInt8) : Decidable (Readable stream) :=
  inferInstanceAs (Decidable (∀ l ∈ lines newline stream, _))

/-- What is read through `fgets` of the pieces that begin with the string. -/
def found (pre : List UInt8) (size : Nat) (stream : List UInt8) : List UInt8 :=
  ((pieces newline size stream).filter fun c => Begins pre c).flatten

theorem Readable.piece {stream : List UInt8} (h : Readable stream) {size : Nat} (hsize : 2 ≤ size)
    (hfit : size ≤ 260) {c : List UInt8} (hc : c ∈ pieces newline size stream) :
    c.length ≤ 259 ∧ 0 ∉ c := by
  have hlen := ((pieces_spec hsize stream).1 c hc).2
  refine ⟨by omega, fun h0 => ?_⟩
  have hmem : (0 : UInt8) ∈ (lines newline stream).flatten := by
    rw [(lines_spec stream).1, ← @flatten_pieces _ _ newline _ hsize stream]
    exact List.mem_flatten.mpr ⟨c, hc, h0⟩
  obtain ⟨l, hl, h0l⟩ := List.mem_flatten.mp hmem
  exact (h l hl).2 h0l

/-- `compare` prints the pieces of the stream it reads that begin with the string. -/
theorem compare_spec {fp stdin stream : List UInt8} {flag : Int} {size : Nat}
    (hflag : flag = 1 ∧ stream = fp ∧ size = 260 ∨ flag ≠ 1 ∧ stream = stdin ∧ size = 100)
    {pre : CString} (hpre : pre.bytes.length ≤ 259) (hstream : Readable stream)
    (filteredPrefix filteredWords : Buffer) :
    compare fp stdin pre flag filteredPrefix filteredWords =
      some (found pre.bytes size stream) := by
  obtain ⟨res, hfilter, hres⟩ := filter_spec pre filteredPrefix hpre
  rw [compare, hfilter, Option.bind_some]
  rcases hflag with ⟨hflag, rfl, rfl⟩ | ⟨hflag, rfl, rfl⟩
  · rw [if_pos hflag]
    exact rounds_spec hres _ _ fun c hc => hstream.piece (by omega) (by omega) hc
  · rw [if_neg hflag]
    exact rounds_spec hres _ _ fun c hc => hstream.piece (by omega) (by omega) hc

/-! ## Both modes -/

/-- The lines that begin with the string. -/
def wanted (pre stream : List UInt8) : List UInt8 :=
  ((lines newline stream).filter fun l => Begins pre l).flatten

/-- `my-look` prints exactly the lines of the stream that begin with the string, with `-f` and
the stream in the file, and without options and the stream as standard input. -/
def Exact (pre : CString) (stream : List UInt8) : Prop :=
  ∀ (fopen : String → Option (List UInt8)) (helpInfo : List UInt8) (argc : Nat)
    (filteredPrefix filteredWords : Buffer), 2 ≤ argc →
    (∀ filePath stdin, fopen filePath = some stream →
      main fopen helpInfo stdin argc [.f filePath] (some pre) filteredPrefix filteredWords =
        some { printed := wanted pre.bytes stream, status := 0 }) ∧
    main fopen helpInfo stream argc [] (some pre) filteredPrefix filteredWords =
      some { printed := wanted pre.bytes stream, status := 0 }

/-- From standard input the program prints the pieces of 99 bytes that begin with the string. -/
theorem main_stdin (fopen : String → Option (List UInt8)) (helpInfo : List UInt8) {argc : Nat}
    (hargc : 2 ≤ argc) {pre : CString} (hpre : pre.bytes.length ≤ 259) {stream : List UInt8}
    (hstream : Readable stream) (filteredPrefix filteredWords : Buffer) :
    main fopen helpInfo stream argc [] (some pre) filteredPrefix filteredWords =
      some { printed := found pre.bytes 100 stream, status := 0 } := by
  rw [main, if_neg (by omega)]
  show Option.map _ (compare [] stream pre 0 filteredPrefix filteredWords) = _
  rw [compare_spec (Or.inr ⟨by decide, rfl, rfl⟩) hpre hstream]
  rfl

/-- From a file the program prints the lines that begin with the string. -/
theorem main_file {fopen : String → Option (List UInt8)} {filePath : String}
    {stream : List UInt8} (hopen : fopen filePath = some stream) (helpInfo stdin : List UInt8)
    {argc : Nat} (hargc : 2 ≤ argc) {pre : CString} (hpre : pre.bytes.length ≤ 259)
    (hstream : Readable stream) (filteredPrefix filteredWords : Buffer) :
    main fopen helpInfo stdin argc [.f filePath] (some pre) filteredPrefix filteredWords =
      some { printed := wanted pre.bytes stream, status := 0 } := by
  have hparse : parse fopen helpInfo [.f filePath] { fFlag := 0, fp := [] } =
      .ok { fFlag := 1, fp := stream } := by
    rw [parse, hopen]
    rfl
  have hall : found pre.bytes 260 stream = wanted pre.bytes stream := by
    rw [found, wanted, pieces_eq_lines (by omega)]
    intro l hl
    have := length_le_content ((lines_spec stream).2.1 l hl)
    have := (hstream l hl).1
    omega
  rw [main, if_neg (by omega), hparse]
  show Option.map _ (compare stream stdin pre 1 filteredPrefix filteredWords) = _
  rw [compare_spec (Or.inl ⟨rfl, rfl, rfl⟩) hpre hstream, hall]
  rfl

/-- **`my-look` is exact in both modes just if no line is cut into pieces that tell another
story**: each piece of at most 99 bytes begins with the string when the line does. -/
theorem exact_iff_pieces {pre : CString} (hpre : pre.bytes.length ≤ 259) {stream : List UInt8}
    (hstream : Readable stream) :
    Exact pre stream ↔ ∀ l ∈ lines newline stream, ∀ p ∈ pieces newline 100 l,
      (Begins pre.bytes p ↔ Begins pre.bytes l) := by
  have hsame : found pre.bytes 100 stream = wanted pre.bytes stream ↔
      ∀ l ∈ lines newline stream, ∀ p ∈ pieces newline 100 l,
        (Begins pre.bytes p ↔ Begins pre.bytes l) := by
    rw [found, wanted, kept_pieces_iff (by omega)]
    simp only [decide_eq_decide]
  rw [← hsame]
  constructor
  · intro h
    have hrun := (h (fun _ => none) [] 2 .zeros .zeros le_rfl).2
    rw [main_stdin _ _ le_rfl hpre hstream] at hrun
    exact congrArg Exit.printed (Option.some.inj hrun)
  · intro h fopen helpInfo argc _ _ hargc
    refine ⟨fun filePath stdin hopen => main_file hopen helpInfo stdin hargc hpre hstream _ _, ?_⟩
    rw [main_stdin fopen helpInfo hargc hpre hstream, h]

/-- `ab`. -/
def ab : CString := .ofBuffer [97, 98]

/-- A line `A-B`. -/
def dashedLine : List UInt8 := [65, 45, 66, 10]

theorem exact_iff_pieces_dashedLine : Exact ab dashedLine :=
  (exact_iff_pieces (by decide) (by decide)).mpr (by decide)

/-- A line of 99 characters `z`, and `ab` after them. -/
def longLine : List UInt8 := List.replicate 99 122 ++ [97, 98, 10]

/-- The line does not begin with `ab`, but from standard input its second piece is printed. -/
theorem longLine_not_exact : Readable longLine ∧ ¬ Exact ab longLine := by
  have hreadable : Readable longLine := by decide +kernel
  refine ⟨hreadable, fun h => ?_⟩
  have hrun := (h (fun _ => none) [] 2 .zeros .zeros le_rfl).2
  rw [main_stdin _ _ le_rfl (by decide) hreadable] at hrun
  have hprinted := congrArg Exit.printed (Option.some.inj hrun)
  have hdiff : found ab.bytes 100 longLine ≠ wanted ab.bytes longLine := by decide +kernel
  exact hdiff hprinted

end Look

end CS537.Utilities
