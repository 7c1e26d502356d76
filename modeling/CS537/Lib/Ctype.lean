import CS537.Lib.CString

/-!
# Characters

`isalpha`, `isdigit`, `isspace` and `tolower` of the C locale: bytes from 128 on are none of
these. `strncasecmp` compares the first bytes of two C strings as `strcmp` does, with
`tolower` of each byte. `atoi` reads the digits a string begins with.
-/

namespace CString

def isalpha (c : UInt8) : Bool := (65 ≤ c && c ≤ 90) || (97 ≤ c && c ≤ 122)

def isdigit (c : UInt8) : Bool := 48 ≤ c && c ≤ 57

def isspace (c : UInt8) : Bool := c = 32 || (9 ≤ c && c ≤ 13)

def tolower (c : UInt8) : UInt8 := if 65 ≤ c && c ≤ 90 then c + 32 else c

/-- `strncasecmp` on the bytes before the terminators. -/
def ncaseBytes : Nat → List UInt8 → List UInt8 → Int
  | 0, _, _ => 0
  | _ + 1, [], [] => 0
  | _ + 1, [], b :: _ => -((tolower b).toNat : Int)
  | _ + 1, a :: _, [] => ((tolower a).toNat : Int)
  | n + 1, a :: as, b :: bs =>
      if tolower a = tolower b then ncaseBytes n as bs
      else ((tolower a).toNat : Int) - ((tolower b).toNat : Int)

def strncasecmp (a b : CString) (n : Nat) : Int := ncaseBytes n a.bytes b.bytes

/-- The number of the digits a list begins with. -/
def decimal (bytes : List UInt8) : Nat :=
  (bytes.takeWhile isdigit).foldl (fun n c => 10 * n + (c.toNat - 48)) 0

/-- `atoi`, for a number that is an `int`. -/
def atoi (s : CString) : Int :=
  match s.bytes.dropWhile isspace with
  | [] => 0
  | c :: rest =>
      if c = 45 then -(decimal rest : Int)
      else if c = 43 then decimal rest
      else decimal (c :: rest)

theorem tolower_pos {b : UInt8} (h : b ≠ 0) : 0 < (tolower b).toNat := by
  have hb : b.toNat ≠ 0 := fun h0 => h (UInt8.toNat_inj.mp h0)
  rw [tolower]
  split
  · rename_i hup
    simp only [Bool.and_eq_true, decide_eq_true_eq, UInt8.le_iff_toNat_le] at hup
    rw [UInt8.toNat_add]
    have h1 : (90 : UInt8).toNat = 90 := rfl
    have h2 : (65 : UInt8).toNat = 65 := rfl
    have h3 : (32 : UInt8).toNat = 32 := rfl
    omega
  · omega

/-- The first `n` bytes compare equal just if they are the same but for the case. -/
theorem ncaseBytes_eq_zero : ∀ {n : Nat} {as bs : List UInt8}, 0 ∉ as → 0 ∉ bs →
    (ncaseBytes n as bs = 0 ↔ (as.take n).map tolower = (bs.take n).map tolower)
  | 0, _, _, _, _ => by simp [ncaseBytes]
  | _ + 1, [], [], _, _ => by simp [ncaseBytes]
  | _ + 1, [], b :: bs, _, hb => by
      have := tolower_pos (Ne.symm (List.ne_of_not_mem_cons hb))
      simp only [ncaseBytes, List.take_succ_cons, List.take_nil, List.map_nil, List.map_cons]
      constructor
      · intro h
        omega
      · intro h
        exact absurd h (by simp)
  | _ + 1, a :: as, [], ha, _ => by
      have := tolower_pos (Ne.symm (List.ne_of_not_mem_cons ha))
      simp only [ncaseBytes, List.take_succ_cons, List.take_nil, List.map_nil, List.map_cons]
      constructor
      · intro h
        omega
      · intro h
        exact absurd h (by simp)
  | n + 1, a :: as, b :: bs, ha, hb => by
      have ih := @ncaseBytes_eq_zero n as bs (List.not_mem_of_not_mem_cons ha)
        (List.not_mem_of_not_mem_cons hb)
      simp only [ncaseBytes, List.take_succ_cons, List.map_cons, List.cons.injEq]
      by_cases hab : tolower a = tolower b
      · rw [if_pos hab, ih]
        simp [hab]
      · have hne : (tolower a).toNat ≠ (tolower b).toNat := fun h => hab (UInt8.toNat_inj.mp h)
        rw [if_neg hab]
        constructor
        · intro h
          omega
        · intro h
          exact absurd h.1 hab

/-- As many bytes as the first string has compare equal just if the second one begins with
them, but for the case. -/
theorem strncasecmp_eq_zero {a b : CString} :
    a.strncasecmp b a.bytes.length = 0 ↔ a.bytes.map tolower <+: b.bytes.map tolower := by
  rw [strncasecmp, ncaseBytes_eq_zero a.noNul b.noNul, List.take_length, List.map_take,
    List.prefix_iff_eq_take, List.length_map]

end CString
