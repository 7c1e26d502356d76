import CS537.Hashing.Refine
import CS537.Lib.Bytes
import CS537.Lib.Ctype
import CS537.Lib.Fgets
import CS537.Lib.Strtok
import CS537.MapReduce.Reporting

/-!
# MapReduce — the programs

`P3A: MapReduce/main.c` counts the words of its files into the hash map and looks one up;
`wordcount.c` and `wordcount_cp.c` write the counts of each partition to a file. All files can
be read, `contents` being what is in them, and all output files can be opened.
-/

namespace CS537.MapReduce

open Grouping Function Hashing MachineInt

/-! ## `Map` -/

/-- The value all mappers emit. -/
def one : CString := ⟨[49], by decide⟩

/-- The loop over the tokens of a line. -/
def mapTokens (delim : UInt8 → Bool) (stops : CString → Bool) :
    Nat → Option CString → List Node
  | 0, _ => []
  | _ + 1, none => []
  | fuel + 1, some dummy =>
      let (token, dummy) := dummy.strsep delim
      if stops token then [] else ⟨token, one⟩ :: mapTokens delim stops fuel dummy

/-- `Map`: the lines of the file, each cut at its first NUL as a string is. -/
def mapLines (delim : UInt8 → Bool) (stops : CString → Bool) (contents : List UInt8) :
    List Node :=
  (Fgets.lines 10 contents).flatMap fun line =>
    mapTokens delim stops (line.length + 2) (some (.ofBuffer line))

/-- The words of a file: its lines cut at each delimiter, up to a word that stops the line. -/
noncomputable def wordsOf (delim : UInt8 → Bool) (stops : List UInt8 → Bool)
    (contents : List UInt8) : List (List UInt8) :=
  (Fgets.lines 10 contents).flatMap fun line =>
    ((line.takeWhile (· ≠ 0)).splitOnP delim).takeWhile fun w => !stops w

theorem mapTokens_spec {delim : UInt8 → Bool} {stops : CString → Bool} {stops' : List UInt8 → Bool}
    (hstops : ∀ w, stops w = stops' w.bytes) :
    ∀ {fuel : Nat} {s : CString}, s.bytes.length + 1 < fuel →
      (mapTokens delim stops fuel (some s)).map (fun x => x.key.bytes) =
          ((s.bytes.splitOnP delim).takeWhile fun w => !stops' w) ∧
        ∀ x ∈ mapTokens delim stops fuel (some s), x.value = one
  | 0, _, h => by omega
  | fuel + 1, s, h => by
      rw [mapTokens]
      dsimp only
      rw [hstops]
      by_cases hs : stops' (s.strsep delim).1.bytes = true
      · rw [if_pos hs]
        obtain ⟨-, hsplit⟩ | ⟨rest, -, -, hsplit⟩ := CString.strsep_spec delim s
        all_goals rw [hsplit]; simp [hs]
      · rw [if_neg hs]
        obtain ⟨hrest, hsplit⟩ | ⟨rest, hrest, hlen, hsplit⟩ := CString.strsep_spec delim s
        · rw [hsplit, hrest]
          obtain ⟨fuel, rfl⟩ : ∃ n, fuel = n + 1 := ⟨fuel - 1, by omega⟩
          simp [mapTokens, hs]
        · obtain ⟨hkeys, hvalues⟩ := @mapTokens_spec delim _ _ hstops fuel rest (by omega)
          rw [hsplit, hrest]
          refine ⟨by simp [hs, hkeys], ?_⟩
          intro x hx
          rcases List.mem_cons.mp hx with rfl | hx
          · rfl
          · exact hvalues x hx

theorem mapLines_spec {delim : UInt8 → Bool} {stops : CString → Bool} {stops' : List UInt8 → Bool}
    (hstops : ∀ w, stops w = stops' w.bytes) (contents : List UInt8) :
    (mapLines delim stops contents).map (fun x => x.key.bytes) = wordsOf delim stops' contents ∧
      ∀ x ∈ mapLines delim stops contents, x.value = one := by
  have hline : ∀ line : List UInt8,
      (mapTokens delim stops (line.length + 2) (some (.ofBuffer line))).map
          (fun x => x.key.bytes) =
          (((line.takeWhile (· ≠ 0)).splitOnP delim).takeWhile fun w => !stops' w) ∧
        ∀ x ∈ mapTokens delim stops (line.length + 2) (some (.ofBuffer line)), x.value = one := by
    intro line
    have hlen : (CString.ofBuffer line).bytes.length ≤ line.length :=
      (List.takeWhile_sublist _).length_le
    exact mapTokens_spec hstops (by omega)
  constructor
  · rw [mapLines, wordsOf, List.map_flatMap]
    exact List.flatMap_congr fun line _ => (hline line).1
  · intro x hx
    obtain ⟨line, -, hx⟩ := List.mem_flatMap.mp hx
    exact (hline line).2 x hx

/-! ## Jobs that count words -/

/-- A job whose mappers emit words and whose reducers call `get_next` until it returns `NULL`. -/
structure CountsWords (job : Job) (words : CString → List (List UInt8)) : Prop where
  valid : Valid job
  keys : ∀ f, (job.map f).map (fun x => x.key.bytes) = words f
  values : ∀ f, ∀ x ∈ job.map f, x.value = one

section CountsWords

variable {job : Job} {words : CString → List (List UInt8)}

theorem CountsWords.keys_emits (h : CountsWords job words) :
    job.emits.map (fun x => x.key.bytes) = job.files.flatMap words := by
  rw [Job.emits, List.map_flatMap]
  exact List.flatMap_congr fun f _ => h.keys f

theorem CountsWords.length_emits (h : CountsWords job words) :
    job.emits.length = (job.files.flatMap words).length := by
  rw [← h.keys_emits, List.length_map]

/-- A finished call has got a `one` for each time its key stands in the files. -/
theorem CountsWords.values_eq (h : CountsWords job words) {s : State} (hjob : s.job = job)
    (hs : Finished s) {i : Invocation} (hi : i ∈ s.log) :
    i.values = List.replicate ((job.files.flatMap words).count i.key.bytes) one := by
  have hperm := hs.values_perm (hjob ▸ h.valid) hi
  rw [hjob] at hperm
  have hcount : ∀ l : List Node,
      (l.filter fun x => x.key = i.key).length =
        (l.map fun x => x.key.bytes).count i.key.bytes := by
    intro l
    induction l with
    | nil => rfl
    | cons x l ih =>
        rw [List.map_cons, List.count_cons]
        by_cases hx : x.key = i.key
        · rw [List.filter_cons_of_pos (by simpa using hx), List.length_cons, ih, hx]
          simp
        · have hne : ¬ x.key.bytes = i.key.bytes := fun hb => hx (CString.ext hb)
          rw [List.filter_cons_of_neg (by simpa using hx), ih]
          simp [hne]
  refine List.eq_replicate_iff.mpr ⟨?_, ?_⟩
  · rw [hperm.length_eq, List.length_map, hcount, h.keys_emits]
  · intro v hv
    obtain ⟨x, hx, rfl⟩ := List.mem_map.mp (hperm.mem_iff.mp hv)
    obtain ⟨f, -, hf⟩ := List.mem_flatMap.mp (List.mem_filter.mp hx).1
    exact h.values f x hf

/-- The keys of the finished calls are the words of the files. -/
theorem CountsWords.mem_keys (h : CountsWords job words) {s : State} (hjob : s.job = job)
    (hs : Finished s) (w : CString) :
    w ∈ s.log.map Invocation.key ↔ w.bytes ∈ job.files.flatMap words := by
  rw [← h.keys_emits]
  constructor
  · intro hw
    obtain ⟨i, hi, rfl⟩ := List.mem_map.mp hw
    obtain ⟨v, hv⟩ := List.exists_mem_of_ne_nil _ (hs.nonempty _ (List.mem_map_of_mem hi))
    have hx := (hs.values_perm (hjob ▸ h.valid) hi).mem_iff.mp hv
    obtain ⟨x, hx, -⟩ := List.mem_map.mp hx
    obtain ⟨hx, hkey⟩ := List.mem_filter.mp hx
    rw [hjob] at hx
    rw [← of_decide_eq_true hkey]
    exact List.mem_map.mpr ⟨x, hx, rfl⟩
  · intro hw
    obtain ⟨x, hx, hkey⟩ := List.mem_map.mp hw
    rw [← CString.ext hkey]
    exact (hs.correct (hjob ▸ h.valid)).every x (hjob ▸ hx)

end CountsWords

/-- A reducer that calls `get_next` until it returns `NULL`. -/
def untilNull : Reducer := fun _ results => results.all Option.isSome

theorem drains_untilNull : Drains untilNull := by
  intro key results
  rw [untilNull, List.all_eq_true]
  constructor
  · intro h hnone
    cases h none hnone
  · intro h r hr
    cases r with
    | none => exact absurd hr h
    | some value => rfl

/-- `MR_DefaultHashPartition`; `c` is an `int`, from a `char`, which is signed. -/
def mrDefaultHashPartition (key : CString) (numPartitions : Nat) : Nat :=
  (key.bytes.foldl (fun (hash : UInt64) c => hash * 33 + c.toInt8.toInt64.toUInt64) 5381).toNat %
    numPartitions

/-! ## `main.c`: looking up a word -/

namespace WordSearch

/-- `" \t\n\r"`. -/
def delim (c : UInt8) : Bool := c = 32 || c = 9 || c = 10 || c = 13

/-- `Map`; an empty token ends its line. -/
def map (contents : CString → List UInt8) (fileName : CString) : List Node :=
  mapLines delim (fun token => token.strcmp ⟨[], by decide⟩ = 0) (contents fileName)

/-- The bytes of an `int`. -/
def intBytes (z : Int) : List UInt8 :=
  (List.range 4).map fun i => UInt8.ofNat (toU32 z / 256 ^ i)

/-- `*(int*)result`. -/
def readInt (bytes : List UInt8) : Int := s32 (Bytes.ofLe (bytes.take 4))

/-- `Reduce`, once `get_next` has returned `NULL`. -/
def reduce (fuel : Nat) (hashmap : HashMap) (i : Invocation) : Except Fault HashMap :=
  mapPut fuel hashmap i.key (intBytes (i.values.foldl (fun count _ => i32 (count + 1)) 0))

/-- What `main` hands to `MR_Run`. -/
def job (contents : CString → List UInt8) (files : List CString) : Job where
  files := files
  map := map contents
  numMappers := 10
  reduce := untilNull
  numReducers := 10
  partition := mrDefaultHashPartition

def usage : List UInt8 := "Invalid usage: ./hashmap <filename> ... <searchterm>\n".toUTF8.toList

/-- What `main` prints for the answer of `MapGet`. -/
def answer (searchterm : CString) : Option (List UInt8) → List UInt8
  | some result =>
      "Found ".toUTF8.toList ++ searchterm.bytes ++ [32] ++
        (toString (readInt result)).toUTF8.toList ++ " times\n".toUTF8.toList
  | none => "Word not found!\n".toUTF8.toList

/-- The files among the arguments: all but the program's name and the search term. -/
def filesOf (argv : List CString) : List CString := argv.tail.dropLast

/-- `main`: what it prints and returns, whatever the interleaving of the threads. -/
inductive Main (fuel : Nat) (contents : CString → List UInt8) (argv : List CString) :
    List UInt8 → Int → Prop
  | usage : argv.length < 3 → Main fuel contents argv usage 1
  | search {searchterm : CString} {s : State} {junk : Junk} {as : List Action}
      {t : State × HashMap} {result : Option (List UInt8)} :
      ¬ argv.length < 3 → argv.getLast? = some searchterm →
      Lts.Run (ReportStep (reduce fuel)) (mrRun s (job contents (filesOf argv)) junk, mapInit) as t →
      t.1.phase = .idle → mapGet fuel t.2 searchterm = .ok result →
      Main fuel contents argv (answer searchterm result) 0

/-- The words of the files, as `Map` cuts them. -/
noncomputable def words (contents : CString → List UInt8) (fileName : CString) :
    List (List UInt8) :=
  wordsOf delim List.isEmpty (contents fileName)

theorem job_countsWords (contents : CString → List UInt8) {files : List CString}
    (hfiles : files ≠ []) : CountsWords (job contents files) (words contents) where
  valid :=
    { files := hfiles
      mappers := show 1 ≤ 10 by decide
      reducers := show 1 ≤ 10 by decide
      partition := fun key => Nat.mod_lt _ (show 0 < 10 by decide)
      drains := drains_untilNull }
  keys f := by
    refine (mapLines_spec ?_ (contents f)).1
    intro w
    rw [Bool.eq_iff_iff, decide_eq_true_iff, CString.strcmp_eq_zero, List.isEmpty_iff]
    exact CString.ext_iff
  values f := by
    refine (@mapLines_spec delim _ List.isEmpty ?_ (contents f)).2
    intro w
    rw [Bool.eq_iff_iff, decide_eq_true_iff, CString.strcmp_eq_zero, List.isEmpty_iff]
    exact CString.ext_iff

/-- A count that fits an `int` is read back as it was put. -/
theorem readInt_intBytes {n : Nat} (h : n < 2147483648) : readInt (intBytes n) = n := by
  have hbyte : ∀ i < 4, (UInt8.ofNat (toU32 n / 256 ^ i)).toNat = n / 256 ^ i % 256 := by
    intro i _
    rw [UInt8.toNat_ofNat']
    congr 2
    unfold toU32
    omega
  have h0 := hbyte 0 (by omega)
  have h1 := hbyte 1 (by omega)
  have h2 := hbyte 2 (by omega)
  have h3 := hbyte 3 (by omega)
  have hrange : List.range 4 = [0, 1, 2, 3] := rfl
  simp only [readInt, intBytes, hrange, List.map_cons, List.map_nil, List.take_succ_cons,
    List.take_zero, Bytes.ofLe, List.foldr_cons, List.foldr_nil, h0, h1, h2, h3]
  unfold s32 u32
  split <;> omega

theorem count_replicate {n : Nat} (h : n < 2147483648) :
    (List.replicate n one).foldl (fun (count : Int) _ => i32 (count + 1)) 0 = n := by
  have hstep : ∀ (n : Nat) (c : Int), 0 ≤ c → c + n < 2147483648 →
      (List.replicate n one).foldl (fun (count : Int) _ => i32 (count + 1)) c = c + n := by
    intro n
    induction n with
    | zero =>
        intro c _ _
        simp
    | succ n ih =>
        intro c hc hlt
        rw [List.replicate_succ, List.foldl_cons, i32_of_mem (by omega) (by omega),
          ih (c + 1) (by omega) (by omega)]
        omega
  simpa using hstep n 0 (by omega) (by omega)

/-- The puts of the calls made so far. -/
def putsOf (log : List Invocation) : List (CString × List UInt8) :=
  log.map fun i => (i.key, intBytes (i.values.foldl (fun count _ => i32 (count + 1)) 0))

theorem foldlM_reduce (fuel : Nat) (log : List Invocation) :
    log.foldlM (reduce fuel) mapInit = mapPuts fuel (putsOf log) := by
  rw [mapPuts, putsOf, List.foldlM_map]
  rfl

/-- The last put of a key that the calls have at most once. -/
theorem lastPut_putsOf {log : List Invocation} (hnd : (log.map Invocation.key).Nodup)
    {count : CString → Nat}
    (hcount : ∀ i ∈ log, i.values.foldl (fun (count : Int) _ => i32 (count + 1)) 0 = count i.key)
    (key : CString) :
    lastPut (putsOf log) key =
      if key ∈ log.map Invocation.key then some (intBytes (count key)) else none := by
  induction log using List.reverseRecOn with
  | nil => rfl
  | append_singleton log i ih =>
      have hlast := hcount i (by simp)
      rw [List.map_append, List.nodup_append] at hnd
      have ih := ih hnd.1 fun j hj => hcount j (List.mem_append_left _ hj)
      rw [putsOf, List.map_append, List.map_singleton, lastPut_append, List.map_append, ← putsOf,
        ih, hlast]
      by_cases hk : i.key = key
      · subst hk
        simp
      · simp [hk, Ne.symm hk]

theorem mapGet_of_represents {fuel : Nat} {m : HashMap} {puts : List (CString × List UInt8)}
    (hfuel : 2147483648 ≤ fuel) (hm : Represents m puts) (hlt : m.capacity < 2147483648)
    (key : CString) : mapGet fuel m key = .ok (lastPut puts key) := by
  obtain ⟨r, hget, hr⟩ := mapGet_spec fuel hm.valid key hlt (by omega)
  have heq : r = lastPut puts key := by
    refine Option.ext fun v => ?_
    rw [hr, hm.entries]
  rw [hget, heq]

section Run

variable {fuel : Nat} (contents : CString → List UInt8)

theorem reduce_ok (hfuel : 2147483648 ≤ fuel) {log : List Invocation}
    (hlog : log.length ≤ 536870909) :
    ∃ m, log.foldlM (reduce fuel) mapInit = .ok m ∧ Represents m (putsOf log) ∧
      m.capacity < 2147483648 := by
  have hcap := capacityFits_of_length fuel hfuel (putsOf log) (by rwa [putsOf, List.length_map])
  obtain ⟨m, hok, hm, hlt⟩ := mapPuts_represents hfuel _ hcap
  exact ⟨m, by rw [foldlM_reduce, hok], hm, hlt⟩

/-- What the hash map answers once `MR_Run` has returned. -/
theorem mapGet_counts (hfuel : 2147483648 ≤ fuel) {files : List CString} (hfiles : files ≠ [])
    (hwords : (files.flatMap (words contents)).length ≤ 536870909) {s : State}
    (hjob : s.job = job contents files) (hs : Finished s) {m : HashMap}
    (hfold : s.log.foldlM (reduce fuel) mapInit = .ok m)
    (hlen : s.log.length ≤ (files.flatMap (words contents)).length) (key : CString) :
    mapGet fuel m key = .ok
      (let n := (files.flatMap (words contents)).count key.bytes
      if n = 0 then none else some (intBytes n)) := by
  have hcw := job_countsWords contents hfiles
  obtain ⟨m', hok, hm, hlt⟩ := @reduce_ok fuel hfuel s.log (hlen.trans hwords)
  rw [hfold] at hok
  cases hok
  rw [mapGet_of_represents hfuel hm hlt key,
    @lastPut_putsOf s.log (hs.correct (hjob ▸ hcw.valid)).once
      (fun key => (files.flatMap (words contents)).count key.bytes) ?_ key]
  · dsimp only
    congr 1
    by_cases hmem : key.bytes ∈ files.flatMap (words contents)
    · rw [if_pos ((hcw.mem_keys hjob hs key).mpr hmem),
        if_neg (Nat.ne_of_gt (List.count_pos_iff.mpr hmem))]
    · rw [if_neg fun h => hmem ((hcw.mem_keys hjob hs key).mp h),
        if_pos (List.count_eq_zero.mpr hmem)]
  · intro i hi
    rw [hcw.values_eq hjob hs hi]
    have hle := @List.count_le_length _ _ i.key.bytes (files.flatMap (words contents))
    exact count_replicate (by show List.count _ (files.flatMap (words contents)) < _; omega)

/-- **The word search**, for every interleaving of its threads: `MR_Run` ends and never
blocks, and `main` prints how often the word stands in the files, or that it does not. -/
theorem main_counts (hfuel : 2147483648 ≤ fuel) (argv : List CString)
    (hwords : ((filesOf argv).flatMap (words contents)).length ≤ 536870909) :
    (∃ out code, Main fuel contents argv out code) ∧
    (∀ out code, Main fuel contents argv out code →
      (argv.length < 3 → out = usage ∧ code = 1) ∧
      ∀ searchterm, ¬ argv.length < 3 → argv.getLast? = some searchterm →
        code = 0 ∧ out =
          (let n := ((filesOf argv).flatMap (words contents)).count searchterm.bytes
          if n = 0 then "Word not found!\n".toUTF8.toList
          else "Found ".toUTF8.toList ++ searchterm.bytes ++ [32] ++
            (toString n).toUTF8.toList ++ " times\n".toUTF8.toList)) ∧
    ∀ s junk as t, ¬ argv.length < 3 →
      Lts.Run (ReportStep (reduce fuel)) (mrRun s (job contents (filesOf argv)) junk, mapInit) as t →
      as.length ≤ (job contents (filesOf argv)).steps ∧
        (t.1.phase ≠ .idle → ∃ a t', ReportStep (reduce fuel) t a t') := by
  have hfiles : ¬ argv.length < 3 → filesOf argv ≠ [] := by
    intro hargc hnil
    have hlen := congrArg List.length hnil
    rw [filesOf, List.length_dropLast, List.length_tail, List.length_nil] at hlen
    omega
  have hreport : ¬ argv.length < 3 → ∀ log : List Invocation,
      log.length ≤ (job contents (filesOf argv)).emits.length →
        ∃ m, log.foldlM (reduce fuel) mapInit = .ok m := by
    intro hargc log hlog
    rw [(job_countsWords contents (hfiles hargc)).length_emits] at hlog
    obtain ⟨m, hok, -⟩ := @reduce_ok fuel hfuel log (hlog.trans hwords)
    exact ⟨m, hok⟩
  have hanswer : ¬ argv.length < 3 → ∀ s junk as t,
      Lts.Run (ReportStep (reduce fuel)) (mrRun s (job contents (filesOf argv)) junk, mapInit) as t →
      t.1.phase = .idle → ∀ key, mapGet fuel t.2 key = .ok
        (let n := ((filesOf argv).flatMap (words contents)).count key.bytes
        if n = 0 then none else some (intBytes n)) := by
    intro hargc s junk as t hrun hidle key
    have hcw := job_countsWords contents (hfiles hargc)
    obtain ⟨-, -, hfold, hlen, hend⟩ := mrRun_report hcw.valid (hreport hargc) hrun
    obtain ⟨hjob, hs⟩ := hend hidle
    rw [hcw.length_emits] at hlen
    exact mapGet_counts contents hfuel (hfiles hargc) hwords hjob hs hfold hlen key
  refine ⟨?_, ?_, ?_⟩
  · by_cases hargc : argv.length < 3
    · exact ⟨_, _, .usage hargc⟩
    · have hcw := job_countsWords contents (hfiles hargc)
      obtain ⟨as, t, hrun, hidle⟩ := exists_report blank mapInit
        ⟨blank.partitions, blank.nodesInPartitions, blank.numOfAccessInPartitions⟩ hcw.valid
        (hreport hargc)
      have hne : argv ≠ [] := by
        rintro rfl
        exact hargc (by decide)
      exact ⟨_, _, .search hargc (List.getLast?_eq_some_getLast hne) hrun hidle
        (hanswer hargc _ _ _ _ hrun hidle _)⟩
  · intro out code hmain
    cases hmain with
    | usage hargc => exact ⟨fun _ => ⟨rfl, rfl⟩, fun _ h => absurd hargc h⟩
    | @search term s junk as t result hargc hterm hrun hidle hget =>
        refine ⟨fun h => absurd h hargc, ?_⟩
        intro searchterm _ hlast
        rw [hterm] at hlast
        cases hlast
        rw [hanswer hargc _ _ _ _ hrun hidle] at hget
        cases hget
        refine ⟨rfl, ?_⟩
        dsimp only
        split
        · rfl
        · have hle := @List.count_le_length _ _ term.bytes
            ((filesOf argv).flatMap (words contents))
          rw [answer, readInt_intBytes (by omega)]
          rfl
  · intro s junk as t hargc hrun
    have hcw := job_countsWords contents (hfiles hargc)
    obtain ⟨hsteps, hprogress, -⟩ := mrRun_report hcw.valid (hreport hargc) hrun
    exact ⟨hsteps, hprogress⟩

end Run

/-- One file of two lines, "a b" and "a". -/
def twoLines : CString → List UInt8 := fun _ => [97, 32, 98, 10, 97, 10]

theorem words_twoLines (f : CString) : words twoLines f = [[97], [98], [97]] := by
  simp [words, wordsOf, twoLines, Fgets.lines, delim, List.splitOnP_cons_eq_if_modifyHead]

theorem main_counts_twoLines :
    Main 2147483648 twoLines [one, one, ⟨[97], by decide⟩] "Found a 2 times\n".toUTF8.toList 0 := by
  have hfiles : filesOf [one, one, ⟨[97], by decide⟩] = [one] := rfl
  have hmain := main_counts twoLines (Nat.le_refl _) [one, one, ⟨[97], by decide⟩]
    (by rw [hfiles]; simp [words_twoLines])
  obtain ⟨out, code, h⟩ := hmain.1
  obtain ⟨rfl, hout⟩ := (hmain.2.1 out code h).2 ⟨[97], by decide⟩ (by decide) rfl
  rw [hfiles] at hout
  simp only [List.flatMap_cons, List.flatMap_nil, List.append_nil, words_twoLines] at hout
  have hcount : ([[97], [98], [97]] : List (List UInt8)).count [97] = 2 := by decide
  have htext : "Found a 2 times\n" = "Found " ++ "a" ++ " " ++ toString 2 ++ " times\n" := by decide
  have ha : "a".toUTF8.toList = [97] := by
    rw [Bytes.toList_eq]
    rfl
  have hblank : " ".toUTF8.toList = [32] := by
    rw [Bytes.toList_eq]
    rfl
  have hfound : out = "Found a 2 times\n".toUTF8.toList := by
    rw [hout, hcount, if_neg (by decide), htext, Bytes.utf8_append, Bytes.utf8_append,
      Bytes.utf8_append, Bytes.utf8_append, ha, hblank]
  rwa [hfound] at h

end WordSearch

/-! ## `wordcount.c` and `wordcount_cp.c`: the counts of each partition -/

namespace WordCount

/-- `"., \t\n\r"`. -/
def delim (c : UInt8) : Bool := c = 46 || c = 44 || c = 32 || c = 9 || c = 10 || c = 13

/-- `Map`; an empty token is a word like any other. -/
def map (contents : CString → List UInt8) (fileName : CString) : List Node :=
  mapLines delim (fun _ => false) (contents fileName)

/-- The line `Reduce` writes for a key. -/
def line (key : CString) (count : Int) : List UInt8 :=
  key.bytes ++ [32] ++ (toString count).toUTF8.toList ++ [10]

/-- `Reduce`, once `getter` has returned `NULL`; `output` is what stands in the files of
`output_fd`. -/
def reduce (output : Nat → List UInt8) (i : Invocation) : Except Unit (Nat → List UInt8) :=
  let count := i.values.foldl (fun count value => i32 (count + value.atoi)) 0
  .ok (update output i.partition (output i.partition ++ line i.key count))

/-- What `main` hands to `MR_Run`; `NUM_MAPPERS` and `NUM_REDUCERS` are set when it is
compiled. -/
def job (contents : CString → List UInt8) (numMappers numReducers : Nat)
    (partition : CString → Nat → Nat) (files : List CString) : Job where
  files := files
  map := map contents
  numMappers := numMappers
  reduce := untilNull
  numReducers := numReducers
  partition := partition

/-- The partitioner of `wordcount_cp.c`: the first byte, a `char`, which is signed. -/
def myPartitioner (key : CString) (numBuckets : Nat) : Nat :=
  match key.bytes with
  | [] => 0
  | c :: _ => c.toInt8.toInt64.toUInt64.toNat % numBuckets

/-- The words of the files, as `Map` cuts them. -/
noncomputable def words (contents : CString → List UInt8) (fileName : CString) :
    List (List UInt8) :=
  wordsOf delim (fun _ => false) (contents fileName)

theorem job_countsWords (contents : CString → List UInt8) {numMappers numReducers : Nat}
    {partition : CString → Nat → Nat} {files : List CString} (hfiles : files ≠ [])
    (hmappers : 1 ≤ numMappers) (hreducers : 1 ≤ numReducers)
    (hpartition : partition = mrDefaultHashPartition ∨ partition = myPartitioner) :
    CountsWords (job contents numMappers numReducers partition files) (words contents) where
  valid :=
    { files := hfiles
      mappers := hmappers
      reducers := hreducers
      partition := by
        intro key
        rcases hpartition with rfl | rfl
        · exact Nat.mod_lt _ hreducers
        · show myPartitioner key numReducers < numReducers
          unfold myPartitioner
          split
          · exact hreducers
          · exact Nat.mod_lt _ hreducers
      drains := drains_untilNull }
  keys f := (@mapLines_spec delim _ (fun _ => false) (fun _ => rfl) (contents f)).1
  values f := (@mapLines_spec delim _ (fun _ => false) (fun _ => rfl) (contents f)).2

theorem count_replicate {n : Nat} (h : n < 2147483648) :
    (List.replicate n one).foldl (fun (count : Int) value => i32 (count + value.atoi)) 0 = n := by
  have hone : one.atoi = 1 := by decide
  have hstep : ∀ (n : Nat) (c : Int), 0 ≤ c → c + n < 2147483648 →
      (List.replicate n one).foldl (fun (count : Int) value => i32 (count + value.atoi)) c =
        c + n := by
    intro n
    induction n with
    | zero =>
        intro c _ _
        simp
    | succ n ih =>
        intro c hc hlt
        rw [List.replicate_succ, List.foldl_cons, hone, i32_of_mem (by omega) (by omega),
          ih (c + 1) (by omega) (by omega)]
        omega
  simpa using hstep n 0 (by omega) (by omega)

theorem reduce_ok (log : List Invocation) (output : Nat → List UInt8) :
    ∃ output', log.foldlM reduce output = .ok output' := by
  induction log generalizing output with
  | nil => exact ⟨output, rfl⟩
  | cons i log ih => exact ih _

/-- The lines in a file are those of the calls in its partition, in their order. -/
theorem foldlM_reduce {count : CString → Nat} {log : List Invocation}
    (hcount : ∀ i ∈ log,
      i.values.foldl (fun (count : Int) value => i32 (count + value.atoi)) 0 = count i.key)
    {output output' : Nat → List UInt8} (h : log.foldlM reduce output = .ok output') (p : Nat) :
    output' p = output p ++
      ((log.filter fun i => i.partition = p).map Invocation.key).flatMap
        fun w => line w (count w) := by
  induction log generalizing output with
  | nil =>
      cases h
      simp
  | cons i log ih =>
      have hi := hcount i List.mem_cons_self
      rw [List.foldlM_cons, reduce, hi] at h
      rw [ih (fun j hj => hcount j (List.mem_cons_of_mem _ hj)) h]
      by_cases hp : i.partition = p
      · subst hp
        rw [update_self, List.filter_cons_of_pos (by simp), List.map_cons, List.flatMap_cons,
          List.append_assoc]
      · rw [update_of_ne (Ne.symm hp), List.filter_cons_of_neg (by simpa using hp)]

/-- **The word count**, for every interleaving of its threads: `MR_Run` ends and never blocks,
and then each file holds the words of its partition in ascending order, each once and with its
count. -/
theorem counts_written (contents : CString → List UInt8) {numMappers numReducers : Nat}
    {partition : CString → Nat → Nat} {files : List CString} (hfiles : files ≠ [])
    (hmappers : 1 ≤ numMappers) (hreducers : 1 ≤ numReducers)
    (hpartition : partition = mrDefaultHashPartition ∨ partition = myPartitioner)
    (hwords : (files.flatMap (words contents)).length < 2147483648) :
    let job := job contents numMappers numReducers partition files
    ∀ s junk, (∃ as t, Lts.Run (ReportStep reduce) (mrRun s job junk, fun _ => []) as t ∧
        t.1.phase = .idle) ∧
      ∀ as t, Lts.Run (ReportStep reduce) (mrRun s job junk, fun _ => []) as t →
        as.length ≤ job.steps ∧ (t.1.phase ≠ .idle → ∃ a t', ReportStep reduce t a t') ∧
        (t.1.phase = .idle → ∀ p, ∃ ws : List CString,
          ws.Pairwise (fun a b => a.strcmp b < 0) ∧
          (∀ w, w ∈ ws ↔ w.bytes ∈ files.flatMap (words contents) ∧ partition w numReducers = p) ∧
          t.2 p = ws.flatMap fun w =>
            line w ((files.flatMap (words contents)).count w.bytes : Nat)) := by
  intro job s junk
  have hcw := job_countsWords contents hfiles hmappers hreducers hpartition
  have hok : ∀ log : List Invocation, log.length ≤ job.emits.length →
      ∃ output, log.foldlM reduce (fun _ => []) = .ok output := fun log _ => reduce_ok log _
  refine ⟨exists_report s _ junk hcw.valid hok, ?_⟩
  intro as t hrun
  obtain ⟨hsteps, hprogress, hfold, -, hend⟩ := mrRun_report hcw.valid hok hrun
  refine ⟨hsteps, hprogress, ?_⟩
  intro hidle p
  obtain ⟨hjob, hs⟩ := hend hidle
  have hcorrect := hs.correct (hjob ▸ hcw.valid)
  refine ⟨(t.1.log.filter fun i => i.partition = p).map Invocation.key, hcorrect.ascending p,
    ?_, ?_⟩
  · intro w
    have hkeys := hcw.mem_keys hjob hs w
    have hplaced : ∀ i ∈ t.1.log, i.partition = partition i.key numReducers := by
      intro i hi
      rw [hcorrect.placed i hi, hjob]
      rfl
    rw [show (files.flatMap (words contents)) = job.files.flatMap (words contents) from rfl,
      ← hkeys]
    constructor
    · intro hw
      obtain ⟨i, hi, rfl⟩ := List.mem_map.mp hw
      obtain ⟨hi, hp⟩ := List.mem_filter.mp hi
      exact ⟨List.mem_map_of_mem hi, by rw [← hplaced i hi]; exact of_decide_eq_true hp⟩
    · rintro ⟨hw, hp⟩
      obtain ⟨i, hi, rfl⟩ := List.mem_map.mp hw
      refine List.mem_map_of_mem (List.mem_filter.mpr ⟨hi, ?_⟩)
      rw [hplaced i hi]
      exact decide_eq_true hp
  · have hcount : ∀ i ∈ t.1.log,
        i.values.foldl (fun (count : Int) value => i32 (count + value.atoi)) 0 =
          ((files.flatMap (words contents)).count i.key.bytes : Nat) := by
      intro i hi
      rw [hcw.values_eq hjob hs hi]
      have hle := @List.count_le_length _ _ i.key.bytes (files.flatMap (words contents))
      exact count_replicate (by show List.count _ (files.flatMap (words contents)) < _; omega)
    have hfile := @foldlM_reduce (fun w => (files.flatMap (words contents)).count w.bytes) _ hcount
      _ _ hfold p
    simpa using hfile

theorem words_twoLines (f : CString) :
    words WordSearch.twoLines f = [[97], [98], [], [97], []] := by
  simp [words, wordsOf, WordSearch.twoLines, Fgets.lines, delim,
    List.splitOnP_cons_eq_if_modifyHead]

/-- Two mappers and one reducer on two files: the empty words at the ends of the lines are
counted with the others. -/
theorem counts_written_twoLines : ∃ as t, ∃ ws : List CString,
    Lts.Run (ReportStep reduce)
      (mrRun blank (job WordSearch.twoLines 2 1 mrDefaultHashPartition [one, one])
        ⟨blank.partitions, fun _ => 7, fun _ => 9⟩, fun _ => []) as t ∧
      t.1.phase = .idle ∧ ws.Pairwise (fun a b => a.strcmp b < 0) ∧
      (∀ w, w ∈ ws ↔ w.bytes ∈ ([[97], [98], []] : List (List UInt8))) ∧
      t.2 0 = ws.flatMap fun w => line w
        (([[97], [98], [], [97], [], [97], [98], [], [97], []].count w.bytes : Nat) : Int) := by
  have hall : [one, one].flatMap (words WordSearch.twoLines) =
      [[97], [98], [], [97], [], [97], [98], [], [97], []] := by
    simp [words_twoLines]
  have hcounts := (counts_written WordSearch.twoLines (List.cons_ne_nil one [one])
    (show 1 ≤ 2 by decide) (Nat.le_refl 1) (Or.inl rfl) (by rw [hall]; decide) blank
    ⟨blank.partitions, fun _ => 7, fun _ => 9⟩)
  obtain ⟨as, t, hrun, hidle⟩ := hcounts.1
  obtain ⟨ws, hasc, hmem, hfile⟩ := (hcounts.2 as t hrun).2.2 hidle 0
  rw [hall] at hmem hfile
  refine ⟨as, t, ws, hrun, hidle, hasc, ?_, hfile⟩
  intro w
  rw [hmem w]
  have hzero : mrDefaultHashPartition w 1 = 0 := Nat.mod_one _
  simp only [hzero, List.mem_cons, List.not_mem_nil, or_false, and_true]
  tauto

end WordCount

end CS537.MapReduce
