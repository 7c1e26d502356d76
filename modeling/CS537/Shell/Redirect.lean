import CS537.Shell.Tokens

/-!
# Shell — the rewriting of the tokens around `>`

How `redirect` ends on a line with one `>`, by the place of the `>` in its token and of the
token among the others: `P` are the tokens before it and `Q` the tokens after it.
-/

namespace CS537.Shell

open Runs

/-- No `>` in the tokens. -/
def Clean (ts : List CString) : Prop := ∀ t ∈ ts, gt ∉ t.bytes

variable {cmd : List (Option CString)} {argc stores i : Nat} {P Q : List CString} {p : CString}

/-! ## The loop -/

/-- The loop passes entries without a `>`. -/
theorem redirectLoop_skip : ∀ (k fuel i : Nat),
    (∀ j, i ≤ j → j < i + k → j < argc ∧ ∃ t, cmd.getD j none = some t ∧ gt ∉ t.bytes) →
    redirectLoop (fuel + k) i cmd argc stores = redirectLoop fuel (i + k) cmd argc stores
  | 0, _, _, _ => rfl
  | k + 1, fuel, i, h => by
      obtain ⟨hi, t, ht, hgt⟩ := h i le_rfl (by omega)
      have ih := redirectLoop_skip k fuel (i + 1) fun j hj hj' => h j (by omega) (by omega)
      rw [← Nat.add_assoc, redirectLoop, if_pos hi, ht]
      simp only [hgt, not_false_eq_true, if_true]
      rw [ih, Nat.add_assoc, Nat.add_comm 1 k]

theorem redirectLoop_done {fuel : Nat} (h : argc ≤ i) :
    redirectLoop (fuel + 1) i cmd argc stores = .parsed cmd argc stores := by
  rw [redirectLoop, if_neg (by omega)]

/-- The loop over tokens without a `>`, from any of them on. -/
theorem redirectLoop_clean {ts : List CString} {fuel : Nat} (hargc : argc = ts.length)
    (hclean : ∀ j, i ≤ j → ∀ t, ts[j]? = some t → gt ∉ t.bytes) (hi : i ≤ argc)
    (hfuel : argc - i < fuel) :
    redirectLoop fuel i (argvOf ts) argc stores = .parsed (argvOf ts) argc stores := by
  obtain ⟨f, rfl⟩ : ∃ f, fuel = f + 1 + (argc - i) := ⟨fuel - 1 - (argc - i), by omega⟩
  rw [redirectLoop_skip, redirectLoop_done (by omega)]
  intro j hj hj'
  have hlt : j < ts.length := by omega
  refine ⟨by omega, ts[j], ?_, hclean j hj _ (List.getElem?_eq_getElem hlt)⟩
  rw [argvOf_getD, List.getElem?_eq_getElem hlt]

/-! ## The way to the token with the `>` -/

theorem argvOf_at : (argvOf (P ++ p :: Q)).getD P.length none = some p := by
  rw [argvOf_getD, List.getElem?_append_right le_rfl, Nat.sub_self]
  rfl

/-- A token with a `>` is `>` itself or has another byte. -/
theorem clean_ne_gtWord {ts : List CString} (h : Clean ts) {t : CString} (ht : t ∈ ts) :
    t.strcmp gtWord ≠ 0 := by
  intro he
  rw [CString.strcmp_eq_zero] at he
  apply h t ht
  rw [he]
  decide

/-- The loop comes to the token with the `>` if no other test ends `redirect`. -/
theorem redirect_enter (hP : Clean P) (hlen : (P ++ p :: Q).length ≤ 100)
    (hends : ∀ t, t = (P ++ p :: Q).head (by simp) ∨ t = (P ++ p :: Q).getLast (by simp) →
      t.strcmp gtWord ≠ 0) :
    redirect (argvOf (P ++ p :: Q)) (P ++ p :: Q).length =
      redirectLoop (102 - P.length) P.length (argvOf (P ++ p :: Q)) (P ++ p :: Q).length 0 := by
  have hne : P ++ p :: Q ≠ [] := by simp
  have hfirst : (argvOf (P ++ p :: Q)).getD 0 none = some ((P ++ p :: Q).head hne) := by
    rw [argvOf_getD, ← List.head?_eq_getElem?, List.head?_eq_some_head]
  have hlast : (argvOf (P ++ p :: Q)).getD ((P ++ p :: Q).length - 1) none =
      some ((P ++ p :: Q).getLast hne) := by
    rw [argvOf_getD, ← List.getLast?_eq_getElem?, List.getLast?_eq_some_getLast]
  rw [redirect, hfirst, hlast]
  simp only
  rw [if_pos ⟨hends _ (Or.inr rfl), hends _ (Or.inl rfl)⟩, argvOf_length hlen]
  have hskip := @redirectLoop_skip (argvOf (P ++ p :: Q)) (P ++ p :: Q).length 0 P.length
    (102 - P.length) 0
  rw [Nat.zero_add] at hskip
  rw [show 100 + 2 = 102 - P.length + P.length by simp at hlen; omega]
  apply hskip
  intro j _ hj
  have hlt : j < (P ++ p :: Q).length := by simp; omega
  refine ⟨hlt, P[j], ?_, hP _ (List.getElem_mem hj)⟩
  rw [argvOf_getD, List.getElem?_append_left hj, List.getElem?_eq_getElem hj]

/-- Neither the first nor the last token is `>` if none of them is. -/
theorem ends_ne_gtWord (hP : Clean P) (hQ : Clean Q) (hp : p ≠ gtWord) :
    ∀ t, t = (P ++ p :: Q).head (by simp) ∨ t = (P ++ p :: Q).getLast (by simp) →
      t.strcmp gtWord ≠ 0 := by
  intro t ht
  have hmem : t ∈ P ++ p :: Q := by
    rcases ht with rfl | rfl
    · exact List.head_mem _
    · exact List.getLast_mem _
  rcases List.mem_append.mp hmem with hm | hm
  · exact clean_ne_gtWord hP hm
  · rcases List.mem_cons.mp hm with rfl | hm
    · rwa [ne_eq, CString.strcmp_eq_zero]
    · exact clean_ne_gtWord hQ hm

/-! ## The token with the `>` -/

/-- The tokens after the one with the `>` have none. -/
theorem clean_after (hQ : Clean Q) {u : CString} (hu : gt ∉ u.bytes) :
    ∀ j, P.length ≤ j → ∀ t, (P ++ u :: Q)[j]? = some t → gt ∉ t.bytes := by
  intro j hj t ht
  rw [List.getElem?_append_right hj] at ht
  rcases List.mem_cons.mp (List.mem_of_getElem? ht) with rfl | hm
  · exact hu
  · exact hQ t hm

/-- `>` alone: right with a token before it and one token after it. -/
theorem redirect_alone (hP : Clean P) (hQ : Clean Q) (hlen : (P ++ gtWord :: Q).length ≤ 100) :
    redirect (argvOf (P ++ gtWord :: Q)) (P ++ gtWord :: Q).length =
      match P, Q with
      | _ :: _, [file] =>
          .parsed ((argvOf (P ++ [gtWord, file])).set P.length (some file)) (P.length + 1) 0
      | _, _ => .misformatted 0 := by
  have hgt : gtWord.strcmp gtWord = 0 := by simp
  match P, Q with
  | [], Q =>
      have hlast : ∃ t, (argvOf ([] ++ gtWord :: Q)).getD (([] ++ gtWord :: Q).length - 1) none = some t := by
        rw [argvOf_getD, ← List.getLast?_eq_getElem?]
        exact ⟨_, List.getLast?_eq_some_getLast (by simp)⟩
      obtain ⟨t, ht⟩ := hlast
      rw [redirect, ht, show (argvOf ([] ++ gtWord :: Q)).getD 0 none = some gtWord from argvOf_getD _ 0]
      simp
  | q :: P, [] =>
      have hlast : (argvOf (q :: P ++ [gtWord])).getD ((q :: P ++ [gtWord]).length - 1) none =
          some gtWord := by
        rw [argvOf_getD, ← List.getLast?_eq_getElem?, List.getLast?_concat]
      rw [redirect, hlast, show (argvOf (q :: P ++ [gtWord])).getD 0 none = some q from argvOf_getD _ 0]
      simp
  | q :: P, file :: Q =>
      have hends : ∀ t, t = (q :: P ++ gtWord :: file :: Q).head (by simp) ∨
          t = (q :: P ++ gtWord :: file :: Q).getLast (by simp) → t.strcmp gtWord ≠ 0 := by
        intro t ht
        rcases ht with rfl | rfl
        · exact clean_ne_gtWord hP List.mem_cons_self
        · apply clean_ne_gtWord hQ
          rw [List.getLast_append_of_ne_nil (by simp) (by simp), List.getLast_cons (by simp)]
          exact List.getLast_mem _
      rw [redirect_enter hP hlen hends]
      obtain ⟨fuel, hfuel⟩ : ∃ f, 102 - (q :: P).length = f + 2 := by
        simp only [List.length_append, List.length_cons] at hlen ⊢
        exact ⟨100 - (P.length + 1), by omega⟩
      have hi : (q :: P).length < (q :: P ++ gtWord :: file :: Q).length := by simp
      have hin : gt ∈ gtWord.bytes := by decide
      rw [hfuel, redirectLoop, if_pos hi, argvOf_at]
      simp only [hin, not_true_eq_false, if_false, hgt, if_true]
      cases Q with
      | nil =>
          have hargc : (q :: P).length + 2 = (q :: P ++ [gtWord, file]).length := by simp
          have hnext : (argvOf (q :: P ++ [gtWord, file])).getD ((q :: P).length + 1) none = some file := by
            rw [argvOf_getD, List.getElem?_append_right (by omega), Nat.add_sub_cancel_left]
            rfl
          rw [if_neg (by rw [hargc]; exact fun h => h rfl), hnext, ← hargc]
          exact redirectLoop_done (by omega)
      | cons file' Q =>
          rw [if_pos (by simp only [List.length_append, List.length_cons]; omega)]

/-- The loop when the round of the token with the `>` puts `u` in its place. -/
theorem redirect_replaced (hP : Clean P) (hQ : Clean Q) (hlen : (P ++ p :: Q).length ≤ 100)
    (hword : p ≠ gtWord) {u : CString} (hu : gt ∉ u.bytes)
    (hround : ∀ fuel, redirectLoop (fuel + 1) P.length (argvOf (P ++ p :: Q)) (P ++ p :: Q).length 0 =
      redirectLoop fuel (P.length + 1) ((argvOf (P ++ p :: Q)).set P.length (some u))
        (P ++ p :: Q).length 0) :
    redirect (argvOf (P ++ p :: Q)) (P ++ p :: Q).length =
      .parsed (argvOf (P ++ u :: Q)) (P ++ u :: Q).length 0 := by
  have hsame : (P ++ p :: Q).length = (P ++ u :: Q).length := by simp
  rw [redirect_enter hP hlen (ends_ne_gtWord hP hQ hword)]
  simp only [List.length_append, List.length_cons] at hlen
  obtain ⟨fuel, hfuel⟩ : ∃ f, 102 - P.length = f + 1 := ⟨101 - P.length, by omega⟩
  rw [hfuel, hround, argvOf_set rfl, hsame]
  apply redirectLoop_clean rfl
  · intro j hj
    exact clean_after hQ hu j (by omega)
  · simp
  · simp only [List.length_append, List.length_cons]
    omega

/-- `>file`: the `>` goes, wherever the token stands. -/
theorem redirect_leading (hP : Clean P) (hQ : Clean Q) (hlen : (P ++ p :: Q).length ≤ 100)
    {y : List UInt8} (hp : p.bytes = gt :: y) (hy : gt ∉ y) (hne : y ≠ []) :
    redirect (argvOf (P ++ p :: Q)) (P ++ p :: Q).length =
      .parsed (argvOf (P ++ p.tail :: Q)) (P ++ p.tail :: Q).length 0 := by
  have hword : p ≠ gtWord := by
    intro he
    rw [he] at hp
    exact hne (List.cons.inj hp).2.symm
  have hcut : gt ∉ p.tail.bytes := by
    change gt ∉ p.bytes.tail
    rwa [hp]
  have hmem : gt ∈ p.bytes := by simp [hp]
  have hhead : p.bytes.head? = some gt := by simp [hp]
  apply redirect_replaced hP hQ hlen hword hcut
  intro fuel
  rw [redirectLoop, if_pos (by simp), argvOf_at]
  simp only [hmem, not_true_eq_false, if_false, CString.strcmp_eq_zero, hword, hhead, if_true]

/-- `word>`: the `>` goes, wherever the token stands. -/
theorem redirect_trailing (hP : Clean P) (hQ : Clean Q) (hlen : (P ++ p :: Q).length ≤ 100)
    {x : List UInt8} (hp : p.bytes = x ++ [gt]) (hx : gt ∉ x) (hne : x ≠ []) :
    redirect (argvOf (P ++ p :: Q)) (P ++ p :: Q).length =
      .parsed (argvOf (P ++ p.dropLast :: Q)) (P ++ p.dropLast :: Q).length 0 := by
  have hhead : p.bytes.head? ≠ some gt := by
    intro hh
    rw [hp, List.head?_append_of_ne_nil _ hne] at hh
    exact hx (List.mem_of_mem_head? hh)
  have hword : p ≠ gtWord := by
    intro he
    exact hhead (by rw [he]; decide)
  have hcut : gt ∉ p.dropLast.bytes := by
    change gt ∉ p.bytes.dropLast
    rwa [hp, List.dropLast_concat]
  have hmem : gt ∈ p.bytes := by simp [hp]
  have hlast : p.bytes.getLast? = some gt := by rw [hp, List.getLast?_concat]
  apply redirect_replaced hP hQ hlen hword hcut
  intro fuel
  rw [redirectLoop, if_pos (by simp), argvOf_at]
  simp only [hmem, not_true_eq_false, if_false, CString.strcmp_eq_zero, hword, hhead, hlast, if_true]

/-- The `>` inside a token is not at its ends. -/
theorem middle_ends {x y : List UInt8} (hp : p.bytes = x ++ gt :: y) (hx : gt ∉ x) (hy : gt ∉ y)
    (hxne : x ≠ []) (hyne : y ≠ []) :
    p.bytes.head? ≠ some gt ∧ p.bytes.getLast? ≠ some gt := by
  constructor
  · intro hh
    rw [hp, List.head?_append_of_ne_nil _ hxne] at hh
    exact hx (List.mem_of_mem_head? hh)
  · intro hh
    rw [hp, List.getLast?_append_of_ne_nil _ (by simp), List.getLast?_cons_of_ne_nil hyne] at hh
    exact hy (List.mem_of_getLast? hh)

/-- `strtok` cuts a token with the `>` inside into its two parts. -/
theorem strtok_middle {x y : List UInt8} (hp : p.bytes = x ++ gt :: y) (hx : gt ∉ x)
    (hy : gt ∉ y) (hxne : x ≠ []) (hyne : y ≠ []) :
    ∃ u rest v rest' : CString, p.strtok gt = some (u, rest) ∧ rest.strtok gt = some (v, rest') ∧
      u.bytes = x ∧ v.bytes = y := by
  have hxs : Solid (· == gt) x := fun b hb => by simpa using ne_of_mem_of_not_mem hb hx
  have hys : Solid (· == gt) y := fun b hb => by simpa using ne_of_mem_of_not_mem hb hy
  have hcut : nextRun (· == gt) p.bytes = some (x, y) := by
    rw [hp]
    exact nextRun_solid_cons hxs hxne (by simp)
  obtain ⟨u, rest, hu, rfl, rfl⟩ := CString.exists_strtok hcut
  obtain ⟨v, rest', hv, hvy, -⟩ := CString.exists_strtok (nextRun_solid_self hys hyne)
  exact ⟨u, rest, v, rest', hu, hv, rfl, hvy⟩

/-- The round of a token with the `>` inside: its two parts go to this entry and the
next. -/
theorem redirectLoop_middle (hlen : P.length + 1 < cmd.length) (hargc : P.length < argc)
    (hat : cmd.getD P.length none = some p) {x y : List UInt8} (hp : p.bytes = x ++ gt :: y)
    (hx : gt ∉ x) (hy : gt ∉ y) (hxne : x ≠ []) (hyne : y ≠ []) :
    ∃ u v : CString, u.bytes = x ∧ v.bytes = y ∧ ∀ fuel,
      redirectLoop (fuel + 1) P.length cmd argc 0 =
        redirectLoop fuel (P.length + 1) ((cmd.set P.length (some u)).set (P.length + 1) (some v))
          (argc + 1) 1 := by
  obtain ⟨u, rest, v, rest', hu, hv, hux, hvy⟩ := strtok_middle hp hx hy hxne hyne
  refine ⟨u, v, hux, hvy, fun fuel => ?_⟩
  have hmem : gt ∈ p.bytes := by simp [hp]
  have hends := middle_ends hp hx hy hxne hyne
  have hword : p ≠ gtWord := by
    intro he
    exact hends.1 (by rw [he]; decide)
  rw [redirectLoop, if_pos hargc, hat]
  simp only [hmem, not_true_eq_false, if_false, CString.strcmp_eq_zero, hword, hends.1, hends.2,
    hlen, if_true, hu, hv, Option.bind_some, Option.map_some]

/-- A token with a byte before and one after the `>` is not `>`. -/
theorem middle_ne_gtWord {x y : List UInt8} (hp : p.bytes = x ++ gt :: y) (hxne : x ≠ []) :
    p ≠ gtWord := by
  intro he
  rw [he] at hp
  have hlen := congrArg List.length hp
  have hpos := List.length_pos_of_ne_nil hxne
  rw [List.length_append, List.length_cons] at hlen
  change 1 = _ at hlen
  omega

/-- `word>file` as the last token: it becomes two. -/
theorem redirect_middle_last (hP : Clean P) (hlen : P.length + 1 < 100) {x y : List UInt8}
    (hp : p.bytes = x ++ gt :: y) (hx : gt ∉ x) (hy : gt ∉ y) (hxne : x ≠ []) (hyne : y ≠ []) :
    ∃ u v : CString, u.bytes = x ∧ v.bytes = y ∧
      redirect (argvOf (P ++ [p])) (P ++ [p]).length =
        .parsed (argvOf (P ++ [u, v])) (P ++ [u, v]).length 1 := by
  have hlen' : (P ++ [p]).length ≤ 100 := by
    simp only [List.length_append, List.length_singleton]
    omega
  obtain ⟨u, v, hu, hv, hround⟩ :=
    @redirectLoop_middle (argvOf (P ++ [p])) (P ++ [p]).length P p
      (by rw [argvOf_length hlen']; exact hlen) (by simp) argvOf_at x y hp hx hy hxne hyne
  refine ⟨u, v, hu, hv, ?_⟩
  have hset : ((argvOf (P ++ [p])).set P.length (some u)).set (P.length + 1) (some v) =
      argvOf (P ++ [u, v]) := by
    rw [argvOf_set rfl, argvOf, argvOf]
    have hpad : 100 - (P ++ [u]).length = 100 - (P ++ [u, v]).length + 1 := by
      simp only [List.length_append, List.length_cons, List.length_nil]
      omega
    rw [hpad, List.replicate_succ]
    simp [List.set_append_right]
  rw [redirect_enter hP hlen' (ends_ne_gtWord hP (by simp [Clean]) (middle_ne_gtWord hp hxne))]
  obtain ⟨fuel, hfuel⟩ : ∃ f, 102 - P.length = f + 1 := ⟨101 - P.length, by omega⟩
  have hargc : (P ++ [p]).length + 1 = (P ++ [u, v]).length := by simp
  rw [hfuel, hround, hset, hargc]
  apply redirectLoop_clean rfl
  · intro j hj t ht
    rw [List.getElem?_append_right (by omega)] at ht
    have hj' : j - P.length = 1 ∨ 2 ≤ j - P.length := by omega
    rcases hj' with hj' | hj'
    · rw [hj'] at ht
      cases ht
      rwa [hv]
    · rw [List.getElem?_eq_none (by simpa using hj')] at ht
      cases ht
  · simp
  · simp only [List.length_append, List.length_cons, List.length_nil]
    omega

/-- `word>file` with a token after it: the loop comes to an entry that is not set. -/
theorem redirect_middle_inner (hP : Clean P) (hQ : Clean Q) (hQne : Q ≠ [])
    (hlen : (P ++ p :: Q).length ≤ 100) {x y : List UInt8}
    (hp : p.bytes = x ++ gt :: y) (hx : gt ∉ x) (hy : gt ∉ y) (hxne : x ≠ []) (hyne : y ≠ []) :
    redirect (argvOf (P ++ p :: Q)) (P ++ p :: Q).length = .crashed 1 := by
  cases Q with
  | nil => exact absurd rfl hQne
  | cons q Q =>
      have hlen' := hlen
      simp only [List.length_append, List.length_cons] at hlen'
      obtain ⟨u, v, hu, hv, hround⟩ :=
        @redirectLoop_middle (argvOf (P ++ p :: q :: Q)) (P ++ p :: q :: Q).length P p
          (by rw [argvOf_length hlen]; omega) (by simp) argvOf_at x y hp hx hy hxne hyne
      have hset : ((argvOf (P ++ p :: q :: Q)).set P.length (some u)).set (P.length + 1) (some v) =
          argvOf (P ++ u :: v :: Q) := by
        rw [argvOf_set rfl]
        have hsplit : P ++ u :: q :: Q = (P ++ [u]) ++ q :: Q := by simp
        rw [hsplit, argvOf_set (by simp)]
        simp
      have hargc : (P ++ p :: q :: Q).length = (P ++ u :: v :: Q).length := by simp
      rw [redirect_enter hP hlen (ends_ne_gtWord hP hQ (middle_ne_gtWord hp hxne))]
      obtain ⟨fuel, hfuel⟩ : ∃ f, 102 - P.length = f + 1 + (Q.length + 1) + 1 :=
        ⟨99 - P.length - Q.length, by omega⟩
      rw [hfuel, hround, hset, redirectLoop_skip]
      · -- the entry after the last token
        have hend : P.length + 1 + (Q.length + 1) = (P ++ u :: v :: Q).length := by
          simp only [List.length_append, List.length_cons]
          omega
        rw [hend, redirectLoop, if_pos (by rw [hargc]; omega), argvOf_getD,
          List.getElem?_eq_none le_rfl]
      · intro j hj hj'
        have hlt : j < (P ++ u :: v :: Q).length := by
          simp only [List.length_append, List.length_cons]
          omega
        refine ⟨by rw [hargc]; omega, (P ++ u :: v :: Q)[j], ?_, ?_⟩
        · rw [argvOf_getD, List.getElem?_eq_getElem hlt]
        · have hsplit : P ++ u :: v :: Q = (P ++ [u]) ++ v :: Q := by simp
          have hvgt : gt ∉ v.bytes := by rwa [hv]
          apply clean_after (P := P ++ [u]) (fun t ht => hQ t (List.mem_cons_of_mem q ht)) hvgt j
            (by simpa using hj)
          rw [← hsplit, List.getElem?_eq_getElem hlt]

/-- A token with the `>` inside in the last entry of the array runs over it. -/
theorem redirect_middle_full (hP : Clean P) (hlen : P.length = 99) {x y : List UInt8}
    (hp : p.bytes = x ++ gt :: y) (hx : gt ∉ x) (hy : gt ∉ y) (hxne : x ≠ []) (hyne : y ≠ []) :
    redirect (argvOf (P ++ [p])) (P ++ [p]).length = .crashed 1 := by
  have hlen' : (P ++ [p]).length ≤ 100 := by simp [hlen]
  have hmem : gt ∈ p.bytes := by simp [hp]
  have hword := middle_ne_gtWord hp hxne
  have hends := middle_ends hp hx hy hxne hyne
  rw [redirect_enter hP hlen' (ends_ne_gtWord hP (by simp [Clean]) hword), hlen]
  have hat : (argvOf (P ++ [p])).getD 99 none = some p := by
    rw [← hlen]
    exact argvOf_at
  rw [show 102 - 99 = 2 + 1 from rfl, redirectLoop, if_pos (by simp [hlen]), hat]
  simp only [hmem, not_true_eq_false, if_false, CString.strcmp_eq_zero, hword, hends.1, hends.2,
    argvOf_length hlen']
  rfl

end CS537.Shell
