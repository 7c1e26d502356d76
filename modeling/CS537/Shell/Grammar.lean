import CS537.Shell.Redirect

/-!
# Shell — the parser and the grammar of the command line

What `preprocess` returns, by the bytes of the line, and the reference grammar: tokens,
or tokens, one `>` and one more token. The two agree on every line but the ones whose only
`>` touches a token and which the grammar refuses.
-/

namespace CS537.Shell

open Runs

/-! ## What `preprocess` returns -/

variable {m : Mysh} {c : CString}

theorem preprocess_misformatted (h : (scan c.bytes).misformatted = true) :
    (preprocess m c).result = some (invalid (scan c.bytes).isRedir) := by
  rw [preprocess]
  simp only [h, if_true]

theorem preprocess_plain (h : (scan c.bytes).misformatted = false)
    (hr : (scan c.bytes).isRedir = false)
    (hlen : (pieces (scan c.bytes).command).length ≤ 100) :
    (preprocess m c).result =
      some (finish (argvOf (pieces (scan c.bytes).command)) (pieces (scan c.bytes).command).length
        false) := by
  rw [preprocess]
  simp only [h, Bool.false_eq_true, if_false]
  have hstore := storePieces_newArgv (pieces (scan c.bytes).command)
  rw [if_pos hlen, pieces] at hstore
  simp only [hstore, hr, Bool.false_eq_true, if_false, pieces]

theorem preprocess_redirect (h : (scan c.bytes).misformatted = false)
    (hr : (scan c.bytes).isRedir = true)
    (hlen : (pieces (scan c.bytes).command).length ≤ 100) :
    (preprocess m c).result =
      match redirect (argvOf (pieces (scan c.bytes).command))
        (pieces (scan c.bytes).command).length with
      | .crashed _ => none
      | .misformatted _ => some (invalid true)
      | .parsed cmd argc _ => some (finish cmd argc true) := by
  rw [preprocess]
  simp only [h, Bool.false_eq_true, if_false]
  have hstore := storePieces_newArgv (pieces (scan c.bytes).command)
  rw [if_pos hlen, pieces] at hstore
  simp only [hstore, hr, if_true, pieces]
  generalize redirect _ _ = redirected
  cases redirected with
  | crashed stores => rfl
  | misformatted stores => rfl
  | parsed cmd argc stores => rfl

/-- A line of more than a hundred tokens runs over the array. -/
theorem preprocess_long (h : (scan c.bytes).misformatted = false)
    (hlen : 100 < (pieces (scan c.bytes).command).length) : (preprocess m c).result = none := by
  rw [preprocess]
  simp only [h, Bool.false_eq_true, if_false]
  have hstore := storePieces_newArgv (pieces (scan c.bytes).command)
  rw [if_neg (by omega), pieces] at hstore
  simp only [hstore]

/-! ## The grammar -/

/-- The words of the argument vector for a line of the grammar: its tokens, or the tokens
before the only `>`, of which there is one at least, and the only token after it. -/
noncomputable def reference (line : List UInt8) : Option (List (List UInt8)) :=
  match line.splitOn gt with
  | [l] => if tokens l = [] then none else some (tokens l)
  | [l, r] =>
      if tokens l ≠ [] ∧ (tokens r).length = 1 then some (tokens l ++ tokens r) else none
  | _ => none

/-- The result of `preprocess` is the one of the grammar. -/
def Conforms (m : Mysh) (c : CString) : Prop :=
  ∃ arg, (preprocess m c).result = some arg ∧
    match reference c.bytes with
    | some words => arg.isValid = true ∧ arg.isRedir = decide (gt ∈ c.bytes) ∧
        arg.argc = words.length ∧
        (arg.argv.take arg.argc).map (Option.map CString.bytes) = words.map some
    | none => arg.isValid = false

/-- The only `>` of the line has a byte of a token next to it. -/
def Touching (line : List UInt8) : Prop :=
  ∃ l r, line = l ++ gt :: r ∧ gt ∉ l ∧ gt ∉ r ∧
    ((∃ b, l.getLast? = some b ∧ blank b = false) ∨ ∃ b, r.head? = some b ∧ blank b = false)

theorem reference_plain {line : List UInt8} (h : gt ∉ line) :
    reference line = if tokens line = [] then none else some (tokens line) := by
  rw [reference, List.splitOn_eq_singleton h]

theorem reference_redirect {l r : List UInt8} (hl : gt ∉ l) (hr : gt ∉ r) :
    reference (l ++ gt :: r) =
      if tokens l ≠ [] ∧ (tokens r).length = 1 then some (tokens l ++ tokens r) else none := by
  rw [reference, List.splitOn_append_cons_self_of_not_mem hl, List.splitOn_eq_singleton hr]

theorem reference_none {line : List UInt8} (h : 2 ≤ line.count gt) : reference line = none := by
  obtain ⟨l, r, rfl, hl⟩ :=
    List.eq_append_cons_of_mem (List.count_pos_iff.mp (by omega : 0 < line.count gt))
  have hr : gt ∈ r := by
    rw [List.count_append, List.count_cons_self, List.count_eq_zero.mpr hl] at h
    exact List.count_pos_iff.mp (by omega)
  obtain ⟨l', r', rfl, hl'⟩ := List.eq_append_cons_of_mem hr
  rw [reference, List.splitOn_append_cons_self_of_not_mem hl,
    List.splitOn_append_cons_self_of_not_mem hl']
  cases hs : r'.splitOn gt with
  | nil => exact absurd hs (List.splitOn_ne_nil gt r')
  | cons a as => rfl

/-! ## A line with one `>` -/

theorem blank_gt : blank gt = false := by decide

/-- The two sides of the `>` and the token it stands in. -/
structure Sides (l r : List UInt8) (A B : List (List UInt8)) (x y : List UInt8) : Prop where
  left : tokens l = A ++ if x = [] then [] else [x]
  right : tokens r = (if y = [] then [] else [y]) ++ B
  line : tokens (l ++ gt :: r) = A ++ (x ++ gt :: y) :: B
  touching : ((∃ b, l.getLast? = some b ∧ blank b = false) ∨ ∃ b, r.head? = some b ∧ blank b = false) ↔
    x ≠ [] ∨ y ≠ []
  memLeft : ∀ b ∈ x, b ∈ l
  memRight : ∀ b ∈ y, b ∈ r
  cleanLeft : ∀ w ∈ A, ∀ b ∈ w, b ∈ l
  cleanRight : ∀ w ∈ B, ∀ b ∈ w, b ∈ r

theorem exists_sides (l r : List UInt8) : ∃ A B x y, Sides l r A B x y := by
  obtain ⟨l₀, x, rfl, hl, hx⟩ := @exists_closes_append _ blank l
  obtain ⟨y, r₀, rfl, hy, hr⟩ := @exists_append_opens _ blank r
  refine ⟨runs blank l₀, runs blank r₀, x, y, ?_, ?_, ?_, ?_, ?_, ?_, ?_, ?_⟩
  · rw [tokens, runs_closes_append hl, runs_of_solid hx]
  · rw [tokens, runs_append_opens _ hr, runs_of_solid hy]
  · exact runs_joined blank_gt hl hx hy hr
  · apply or_congr
    · constructor
      · rintro ⟨b, hb, hnb⟩ hx0
        subst hx0
        rw [List.append_nil] at hb
        rcases hl with rfl | ⟨t, a, rfl, ha⟩
        · cases hb
        · rw [List.getLast?_concat] at hb
          cases hb
          rw [ha] at hnb
          cases hnb
      · intro hx0
        refine ⟨x.getLast hx0, ?_, hx _ (List.getLast_mem hx0)⟩
        rw [List.getLast?_append_of_ne_nil _ hx0, List.getLast?_eq_some_getLast hx0]
    · constructor
      · rintro ⟨b, hb, hnb⟩ hy0
        subst hy0
        rcases hr with rfl | ⟨a, t, rfl, ha⟩
        · cases hb
        · cases hb
          rw [ha] at hnb
          cases hnb
      · intro hy0
        refine ⟨y.head hy0, ?_, hy _ (List.head_mem hy0)⟩
        rw [List.head?_append_of_ne_nil _ hy0, List.head?_eq_some_head hy0]
  · exact fun b hb => List.mem_append_right l₀ hb
  · exact fun b hb => List.mem_append_left r₀ hb
  · exact fun w hw b hb => List.mem_append_left x ((mem_runs hw).2 b hb)
  · exact fun w hw b hb => List.mem_append_right y ((mem_runs hw).2 b hb)

/-- A valid result with these words at the front of the array. -/
structure Accepted (arg : ArgumentPck) (words : List (List UInt8)) (redir : Bool) : Prop where
  valid : arg.isValid = true
  redir : arg.isRedir = redir
  argc : arg.argc = words.length
  size : arg.argv.length = 100
  words : (arg.argv.take arg.argc).map (Option.map CString.bytes) = words.map some

theorem accepted_finish {ts : List CString} {words : List (List UInt8)} (hwords : ts.map CString.bytes = words)
    (hne : ts ≠ []) (hlen : ts.length ≤ 100) (redir : Bool) :
    Accepted (finish (argvOf ts) ts.length redir) words redir := by
  subst hwords
  refine ⟨?_, rfl, by simp [finish], argvOf_length hlen, ?_⟩
  · change ((argvOf ts).getD 0 none).isSome = true
    cases ts with
    | nil => exact absurd rfl hne
    | cons t ts =>
        rw [argvOf_getD]
        rfl
  · change ((argvOf ts).take ts.length).map (Option.map CString.bytes) = _
    rw [argvOf, List.take_left' (by simp)]
    simp

/-- The pieces of a line with one `>`, around the one it stands in. -/
theorem pieces_sides {l r : List UInt8} {A B : List (List UInt8)} {x y : List UInt8}
    (hline : IsLine c) (hc : c.bytes = l ++ gt :: r) (hl : gt ∉ l) (hr : gt ∉ r)
    (hs : Sides l r A B x y) :
    (scan c.bytes).misformatted = false ∧ (scan c.bytes).isRedir = true ∧
      ∃ P p Q, pieces (scan c.bytes).command = P ++ p :: Q ∧ P.map CString.bytes = A ∧
        p.bytes = x ++ gt :: y ∧ Q.map CString.bytes = B ∧ Clean P ∧ Clean Q := by
  have hone : c.bytes.count gt = 1 := by
    rw [hc, List.count_append, List.count_cons_self, List.count_eq_zero.mpr hl,
      List.count_eq_zero.mpr hr]
  have hmis : (scan c.bytes).misformatted = false := by
    have h := (scan_count c.bytes).2
    rw [hone] at h
    simpa using h
  refine ⟨hmis, (scan_count c.bytes).1.mpr (by omega), ?_⟩
  have hbytes := pieces_bytes hline hmis
  rw [hc, hs.line, ← hc] at hbytes
  obtain ⟨P, rest, hpieces, hP, hrest⟩ := List.map_eq_append_iff.mp hbytes
  obtain ⟨p, Q, rfl, hp, hQ⟩ := List.map_eq_cons_iff.mp hrest
  refine ⟨P, p, Q, hpieces, hP, hp, hQ, ?_, ?_⟩
  · intro t ht hgt
    exact hl (hs.cleanLeft t.bytes (hP ▸ List.mem_map_of_mem ht) gt hgt)
  · intro t ht hgt
    exact hr (hs.cleanRight t.bytes (hQ ▸ List.mem_map_of_mem ht) gt hgt)

variable {l r : List UInt8} {A B : List (List UInt8)} {x y : List UInt8}

/-- `>` between blanks. -/
theorem preprocess_alone (hline : IsLine c) (hc : c.bytes = l ++ gt :: r) (hl : gt ∉ l)
    (hr : gt ∉ r) (hs : Sides l r A B [] []) (hlen : (tokens c.bytes).length ≤ 100) :
    (A ≠ [] ∧ B.length = 1 → ∃ arg, (preprocess m c).result = some arg ∧ Accepted arg (A ++ B) true) ∧
      (¬ (A ≠ [] ∧ B.length = 1) → (preprocess m c).result = some (invalid true)) := by
  obtain ⟨hmis, hred, P, p, Q, hpieces, rfl, hp, rfl, hP, hQ⟩ := pieces_sides hline hc hl hr hs
  have hword : p = gtWord := CString.ext hp
  subst hword
  rw [← pieces_bytes hline hmis, List.length_map] at hlen
  rw [preprocess_redirect hmis hred hlen, hpieces]
  rw [hpieces] at hlen
  rw [redirect_alone hP hQ hlen]
  match P, Q with
  | [], Q => simp
  | q :: P, [] => simp
  | q :: P, file :: file' :: Q => simp
  | q :: P, [file] =>
      refine ⟨fun _ => ⟨_, rfl, ?_⟩, fun h => absurd ⟨by simp, rfl⟩ h⟩
      have hset : (argvOf (q :: P ++ [gtWord, file])).set (q :: P).length (some file) =
          argvOf (q :: P ++ [file, file]) := argvOf_set rfl
      have hfront : (argvOf (q :: P ++ [file, file])).take ((q :: P).length + 1) =
          (q :: P ++ [file]).map some := by
        have hsplit : argvOf (q :: P ++ [file, file]) =
            (q :: P ++ [file]).map some ++ some file :: List.replicate (100 - (P.length + 3)) none := by
          simp [argvOf]
        rw [hsplit, List.take_left' (by simp)]
      refine ⟨?_, rfl, by simp [finish], ?_, ?_⟩
      · change (((argvOf (q :: P ++ [gtWord, file])).set (q :: P).length (some file)).getD 0 none).isSome = true
        rw [hset, argvOf_getD]
        rfl
      · change ((argvOf (q :: P ++ [gtWord, file])).set (q :: P).length (some file)).length = 100
        rw [List.length_set, argvOf_length hlen]
      · change (((argvOf (q :: P ++ [gtWord, file])).set (q :: P).length (some file)).take
          ((q :: P).length + 1)).map _ = _
        rw [hset, hfront]
        simp

/-- `>` at the front of a token. -/
theorem preprocess_leading (hline : IsLine c) (hc : c.bytes = l ++ gt :: r) (hl : gt ∉ l)
    (hr : gt ∉ r) (hs : Sides l r A B [] y) (hy : y ≠ []) (hlen : (tokens c.bytes).length ≤ 100) :
    ∃ arg, (preprocess m c).result = some arg ∧ Accepted arg (A ++ y :: B) true := by
  obtain ⟨hmis, hred, P, p, Q, hpieces, rfl, hp, rfl, hP, hQ⟩ := pieces_sides hline hc hl hr hs
  rw [← pieces_bytes hline hmis, List.length_map] at hlen
  rw [preprocess_redirect hmis hred hlen, hpieces]
  rw [hpieces] at hlen
  rw [redirect_leading hP hQ hlen hp (fun h => hr (hs.memRight gt h)) hy]
  refine ⟨_, rfl, accepted_finish ?_ (by simp) (by simpa using hlen) true⟩
  rw [List.map_append, List.map_cons]
  congr 2
  change p.bytes.tail = y
  rw [hp]
  rfl

/-- `>` at the end of a token. -/
theorem preprocess_trailing (hline : IsLine c) (hc : c.bytes = l ++ gt :: r) (hl : gt ∉ l)
    (hr : gt ∉ r) (hs : Sides l r A B x []) (hx : x ≠ []) (hlen : (tokens c.bytes).length ≤ 100) :
    ∃ arg, (preprocess m c).result = some arg ∧ Accepted arg (A ++ x :: B) true := by
  obtain ⟨hmis, hred, P, p, Q, hpieces, rfl, hp, rfl, hP, hQ⟩ := pieces_sides hline hc hl hr hs
  rw [← pieces_bytes hline hmis, List.length_map] at hlen
  rw [preprocess_redirect hmis hred hlen, hpieces]
  rw [hpieces] at hlen
  rw [redirect_trailing hP hQ hlen hp (fun h => hl (hs.memLeft gt h)) hx]
  refine ⟨_, rfl, accepted_finish ?_ (by simp) (by simpa using hlen) true⟩
  rw [List.map_append, List.map_cons]
  congr 2
  change p.bytes.dropLast = x
  rw [hp, List.dropLast_concat]

/-- `>` inside the last token. -/
theorem preprocess_middle (hline : IsLine c) (hc : c.bytes = l ++ gt :: r) (hl : gt ∉ l)
    (hr : gt ∉ r) (hs : Sides l r A [] x y) (hx : x ≠ []) (hy : y ≠ [])
    (hlen : (tokens c.bytes).length ≤ 99) :
    ∃ arg, (preprocess m c).result = some arg ∧ Accepted arg (A ++ [x, y]) true := by
  obtain ⟨hmis, hred, P, p, Q, hpieces, rfl, hp, hQ, hP, -⟩ := pieces_sides hline hc hl hr hs
  obtain rfl := List.map_eq_nil_iff.mp hQ
  rw [← pieces_bytes hline hmis, List.length_map] at hlen
  rw [preprocess_redirect hmis hred (by omega), hpieces]
  rw [hpieces, List.length_append, List.length_singleton] at hlen
  obtain ⟨u, v, hu, hv, hred'⟩ := redirect_middle_last hP (by omega) hp
    (fun h => hl (hs.memLeft gt h)) (fun h => hr (hs.memRight gt h)) hx hy
  rw [hred']
  refine ⟨_, rfl, accepted_finish ?_ (by simp) (by simp; omega) true⟩
  rw [List.map_append, List.map_cons, List.map_singleton, hu, hv]

/-- `>` inside a token that is not the last. -/
theorem preprocess_inner (hline : IsLine c) (hc : c.bytes = l ++ gt :: r) (hl : gt ∉ l)
    (hr : gt ∉ r) (hs : Sides l r A B x y) (hB : B ≠ []) (hx : x ≠ []) (hy : y ≠ [])
    (hlen : (tokens c.bytes).length ≤ 100) : (preprocess m c).result = none := by
  obtain ⟨hmis, hred, P, p, Q, hpieces, rfl, hp, rfl, hP, hQ⟩ := pieces_sides hline hc hl hr hs
  rw [← pieces_bytes hline hmis, List.length_map] at hlen
  rw [preprocess_redirect hmis hred hlen, hpieces]
  rw [hpieces] at hlen
  rw [redirect_middle_inner hP hQ (by simpa using hB) hlen hp (fun h => hl (hs.memLeft gt h))
    (fun h => hr (hs.memRight gt h)) hx hy]

/-! ## The parser agrees with the grammar -/

theorem scan_plain (hgt : gt ∉ c.bytes) :
    (scan c.bytes).misformatted = false ∧ (scan c.bytes).isRedir = false := by
  have hzero := List.count_eq_zero.mpr hgt
  obtain ⟨hr, hm⟩ := scan_count c.bytes
  rw [hzero] at hr hm
  exact ⟨by simpa using hm, by simpa using hr⟩

/-- A line without a `>` is cut into its tokens. -/
theorem plain_result (hline : IsLine c) (hgt : gt ∉ c.bytes)
    (hlen : (tokens c.bytes).length ≤ 100) :
    ∃ ts : List CString, ts.map CString.bytes = tokens c.bytes ∧
      ∀ m, (preprocess m c).result = some (finish (argvOf ts) ts.length false) := by
  obtain ⟨hmis, hred⟩ := scan_plain hgt
  have hbytes := pieces_bytes hline hmis
  rw [← hbytes, List.length_map] at hlen
  exact ⟨_, hbytes, fun m => preprocess_plain hmis hred hlen⟩

/-- A line of the grammar without a `>`. -/
theorem accepted_plain (hline : IsLine c) (hgt : gt ∉ c.bytes) (hne : tokens c.bytes ≠ [])
    (hlen : (tokens c.bytes).length ≤ 100) :
    ∃ arg, (preprocess m c).result = some arg ∧ Accepted arg (tokens c.bytes) false := by
  obtain ⟨ts, hts, hres⟩ := plain_result hline hgt hlen
  refine ⟨_, hres m, accepted_finish hts ?_ ?_ false⟩
  · intro h0
    rw [h0] at hts
    exact hne hts.symm
  · rwa [← hts, List.length_map] at hlen

/-- A line without a token is not valid. -/
theorem refused_empty (hline : IsLine c) (hgt : gt ∉ c.bytes) (h0 : tokens c.bytes = []) :
    ∃ arg, (preprocess m c).result = some arg ∧ arg.isValid = false := by
  obtain ⟨ts, hts, hres⟩ := plain_result hline hgt (by simp [h0])
  rw [h0] at hts
  obtain rfl := List.map_eq_nil_iff.mp hts
  exact ⟨_, hres m, rfl⟩

/-- A line of the grammar with a `>`, wherever the `>` stands. -/
theorem accepted_redirect (hline : IsLine c) (hc : c.bytes = l ++ gt :: r) (hl : gt ∉ l)
    (hr : gt ∉ r) (hok : tokens l ≠ [] ∧ (tokens r).length = 1)
    (hlen : (tokens l ++ tokens r).length ≤ 99) :
    ∃ arg, (preprocess m c).result = some arg ∧ Accepted arg (tokens l ++ tokens r) true := by
  obtain ⟨A, B, x, y, hs⟩ := exists_sides l r
  have hleft := hs.left
  have hright := hs.right
  have htok : (tokens c.bytes).length = A.length + 1 + B.length := by
    rw [hc, hs.line, List.length_append, List.length_cons]
    omega
  by_cases hx : x = []
  · subst hx
    rw [if_pos rfl, List.append_nil] at hleft
    by_cases hy : y = []
    · subst hy
      rw [if_pos rfl, List.nil_append] at hright
      rw [hleft, hright] at hok hlen ⊢
      rw [List.length_append] at hlen
      exact (preprocess_alone hline hc hl hr hs (by omega)).1 hok
    · rw [if_neg hy, List.singleton_append] at hright
      rw [hleft, hright] at hlen ⊢
      rw [List.length_append, List.length_cons] at hlen
      exact preprocess_leading hline hc hl hr hs hy (by omega)
  · rw [if_neg hx] at hleft
    by_cases hy : y = []
    · subst hy
      rw [if_pos rfl, List.nil_append] at hright
      rw [hleft, hright, List.append_assoc] at hlen ⊢
      rw [List.length_append, List.singleton_append, List.length_cons] at hlen
      exact preprocess_trailing hline hc hl hr hs hx (by omega)
    · rw [if_neg hy, List.singleton_append] at hright
      have hB : B = [] := by
        have hone := hok.2
        rw [hright, List.length_cons] at hone
        exact List.length_eq_zero_iff.mp (by omega)
      subst hB
      rw [hleft, hright, List.append_assoc] at hlen ⊢
      rw [List.length_append, List.singleton_append, List.length_cons, List.length_cons] at hlen
      exact preprocess_middle hline hc hl hr hs hx hy (by simp only [List.length_nil] at htok; omega)

/-- A line the grammar refuses: the parser refuses it if its `>` stands alone, and takes it
or runs over the tokens if not. -/
theorem refused_redirect (hline : IsLine c) (hc : c.bytes = l ++ gt :: r) (hl : gt ∉ l)
    (hr : gt ∉ r) (hno : ¬ (tokens l ≠ [] ∧ (tokens r).length = 1))
    (hlen : (tokens c.bytes).length ≤ 100) :
    (∃ arg, (preprocess m c).result = some arg ∧ arg.isValid = false) ↔ ¬ Touching c.bytes := by
  obtain ⟨A, B, x, y, hs⟩ := exists_sides l r
  have hleft := hs.left
  have hright := hs.right
  have hvalid : ∀ {words}, (∃ arg, (preprocess m c).result = some arg ∧ Accepted arg words true) →
      ¬ ∃ arg, (preprocess m c).result = some arg ∧ arg.isValid = false := by
    rintro words ⟨arg, ha, hacc⟩ ⟨arg', ha', hinv⟩
    rw [ha] at ha'
    cases ha'
    rw [hacc.valid] at hinv
    cases hinv
  have htouch : x ≠ [] ∨ y ≠ [] → Touching c.bytes := fun h => ⟨l, r, hc, hl, hr, hs.touching.mpr h⟩
  by_cases hx : x = []
  · subst hx
    rw [if_pos rfl, List.append_nil] at hleft
    by_cases hy : y = []
    · subst hy
      rw [if_pos rfl, List.nil_append] at hright
      rw [hleft, hright] at hno
      refine iff_of_true ⟨_, (preprocess_alone hline hc hl hr hs hlen).2 hno, rfl⟩ ?_
      rintro ⟨l', r', hc', hl', hr', ht⟩
      -- the line is cut at its only `>` in one way
      have hsame : l = l' ∧ r = r' := by
        rw [hc] at hc'
        have hsplit := congrArg (List.splitOn gt) hc'
        rw [List.splitOn_append_cons_self_of_not_mem hl, List.splitOn_append_cons_self_of_not_mem hl',
          List.splitOn_eq_singleton hr, List.splitOn_eq_singleton hr'] at hsplit
        simpa using hsplit
      obtain ⟨rfl, rfl⟩ := hsame
      exact (hs.touching.mp ht).elim (fun h => h rfl) fun h => h rfl
    · exact iff_of_false (hvalid (preprocess_leading hline hc hl hr hs hy hlen))
        (not_not_intro (htouch (Or.inr hy)))
  · rw [if_neg hx] at hleft
    by_cases hy : y = []
    · subst hy
      exact iff_of_false (hvalid (preprocess_trailing hline hc hl hr hs hx hlen))
        (not_not_intro (htouch (Or.inl hx)))
    · rw [if_neg hy, List.singleton_append] at hright
      have hB : B ≠ [] := by
        intro hB
        apply hno
        rw [hleft, hright, hB]
        simp
      have hcrash := @preprocess_inner m c l r A B x y hline hc hl hr hs hB hx hy hlen
      refine iff_of_false ?_ (not_not_intro (htouch (Or.inl hx)))
      rintro ⟨arg, ha, _⟩
      rw [hcrash] at ha
      cases ha

/-- On a line of at most 98 tokens the parser does what the grammar says exactly if the
grammar accepts the line or no token touches its only `>`. -/
theorem preprocess_conforms_iff (m : Mysh) (c : CString) (hline : IsLine c)
    (hlen : (tokens c.bytes).length ≤ 98) :
    Conforms m c ↔ (Touching c.bytes → (reference c.bytes).isSome = true) := by
  rw [Conforms]
  have hcount : c.bytes.count gt = 0 ∨ c.bytes.count gt = 1 ∨ 2 ≤ c.bytes.count gt := by omega
  rcases hcount with h0 | h1 | h2
  · -- no `>`
    have hgt := List.count_eq_zero.mp h0
    have htouch : ¬ Touching c.bytes := by
      rintro ⟨l, r, hc, -⟩
      exact hgt (by simp [hc])
    refine iff_of_true ?_ fun h => absurd h htouch
    rw [reference_plain hgt]
    by_cases hempty : tokens c.bytes = []
    · rw [if_pos hempty]
      exact refused_empty hline hgt hempty
    · rw [if_neg hempty]
      obtain ⟨arg, ha, hacc⟩ := @accepted_plain m c hline hgt hempty (by omega)
      refine ⟨arg, ha, hacc.valid, ?_, hacc.argc, hacc.words⟩
      rw [hacc.redir]
      simp [hgt]
  · -- one `>`
    obtain ⟨l, r, hc, hl⟩ :=
      List.eq_append_cons_of_mem (List.count_pos_iff.mp (by omega : 0 < c.bytes.count gt))
    have hr : gt ∉ r := by
      rw [hc, List.count_append, List.count_cons_self, List.count_eq_zero.mpr hl] at h1
      exact List.count_eq_zero.mp (by omega)
    have hin : gt ∈ c.bytes := by simp [hc]
    by_cases hok : tokens l ≠ [] ∧ (tokens r).length = 1
    · have href : reference c.bytes = some (tokens l ++ tokens r) := by
        rw [hc, reference_redirect hl hr, if_pos hok]
      have hwords : (tokens l ++ tokens r).length ≤ 99 := by
        obtain ⟨A, B, x, y, hs⟩ := exists_sides l r
        rw [hc, hs.line] at hlen
        rw [hs.left, hs.right]
        simp only [List.length_append, List.length_cons] at hlen ⊢
        split <;> split <;> simp only [List.length_nil, List.length_singleton] <;> omega
      rw [href]
      refine iff_of_true ?_ fun _ => rfl
      obtain ⟨arg, ha, hacc⟩ := @accepted_redirect m c l r hline hc hl hr hok hwords
      refine ⟨arg, ha, hacc.valid, ?_, hacc.argc, hacc.words⟩
      rw [hacc.redir]
      simp [hin]
    · have href : reference c.bytes = none := by
        rw [hc, reference_redirect hl hr, if_neg hok]
      rw [href]
      have hiff := @refused_redirect m c l r hline hc hl hr hok (by omega)
      simpa using hiff
  · -- several
    have hmis := (scan_count c.bytes).2.mpr h2
    have htouch : ¬ Touching c.bytes := by
      rintro ⟨l, r, hc, hl, hr, -⟩
      rw [hc, List.count_append, List.count_cons_self, List.count_eq_zero.mpr hl,
        List.count_eq_zero.mpr hr] at h2
      omega
    refine iff_of_true ?_ fun h => absurd h htouch
    rw [reference_none h2]
    exact ⟨_, preprocess_misformatted hmis, rfl⟩

/-- `>a`. -/
def fileOnly : CString := .ofBuffer [62, 97]

theorem preprocess_conforms_iff_fileOnly :
    Conforms .start fileOnly ↔ (Touching fileOnly.bytes → (reference fileOnly.bytes).isSome = true) :=
  preprocess_conforms_iff .start fileOnly (by unfold IsLine; decide) (by decide)

/-- `>a` is valid, with `a` as its command. -/
theorem fileOnly_not_refused :
    ¬ ∀ c : CString, IsLine c → c.bytes.length < 512 → (tokens c.bytes).length ≤ 98 →
      Conforms .start c := by
  intro h
  obtain ⟨arg, ha, hgram⟩ := h fileOnly (by unfold IsLine; decide) (by decide) (by decide)
  have href : reference fileOnly.bytes = none := by decide
  have hresult : (preprocess .start fileOnly).result =
      some (finish (argvOf [.ofBuffer [97]]) 1 true) := by decide
  rw [href] at hgram
  rw [hresult] at ha
  cases ha
  cases hgram

end CS537.Shell
