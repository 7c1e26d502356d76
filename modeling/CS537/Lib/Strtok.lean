import CS537.Lib.CString
import CS537.Lib.Runs

/-!
# Cutting and joining C strings

`strtok`, `strsep`, the two ways to drop an end of a string, and joining strings.
-/

namespace CString

/-- The string after its first byte. -/
def tail (s : CString) : CString := ⟨s.bytes.tail, fun h => s.noNul (List.mem_of_mem_tail h)⟩

/-- The string without its last byte. -/
def dropLast (s : CString) : CString := ⟨s.bytes.dropLast, fun h => s.noNul (List.dropLast_subset _ h)⟩

/-- One string after the other. -/
def append (s t : CString) : CString :=
  ⟨s.bytes ++ t.bytes, fun h => (List.mem_append.mp h).elim s.noNul t.noNul⟩

/-- The next piece between delimiters, and the string after the delimiter that ends
it. -/
def strtok (delim : UInt8) (s : CString) : Option (CString × CString) :=
  match h : Runs.nextRun (· == delim) s.bytes with
  | none => none
  | some (piece, rest) =>
      some (⟨piece, fun h0 => s.noNul ((Runs.nextRun_subset h).1 0 h0)⟩,
        ⟨rest, fun h0 => s.noNul ((Runs.nextRun_subset h).2 0 h0)⟩)

/-- `strtok` until there is no piece left. -/
def strtokAll (delim : UInt8) : Nat → CString → List CString
  | 0, _ => []
  | fuel + 1, s =>
      match s.strtok delim with
      | none => []
      | some (piece, rest) => piece :: strtokAll delim fuel rest

theorem strtok_none {delim : UInt8} {s : CString} (h : s.strtok delim = none) :
    Runs.nextRun (· == delim) s.bytes = none := by
  rw [strtok] at h
  split at h
  · assumption
  · cases h

theorem strtok_some {delim : UInt8} {s piece rest : CString}
    (h : s.strtok delim = some (piece, rest)) :
    Runs.nextRun (· == delim) s.bytes = some (piece.bytes, rest.bytes) := by
  rw [strtok] at h
  split at h
  · cases h
  · rename_i hn
    cases h
    exact hn

theorem exists_strtok {delim : UInt8} {s : CString} {p r : List UInt8}
    (h : Runs.nextRun (· == delim) s.bytes = some (p, r)) :
    ∃ piece rest, s.strtok delim = some (piece, rest) ∧ piece.bytes = p ∧ rest.bytes = r := by
  cases hs : s.strtok delim with
  | none =>
      rw [strtok_none hs] at h
      cases h
  | some pr =>
      obtain ⟨piece, rest⟩ := pr
      rw [strtok_some hs] at h
      cases h
      exact ⟨piece, rest, rfl, rfl, rfl⟩

/-- The pieces are the runs of the string between delimiters. -/
theorem strtokAll_bytes {delim : UInt8} : ∀ {fuel : Nat} {s : CString}, s.bytes.length ≤ fuel →
    (strtokAll delim fuel s).map bytes = Runs.runs (· == delim) s.bytes
  | 0, s, h => by
      have hs : s.bytes = [] := List.length_eq_zero_iff.mp (by omega)
      rw [hs, Runs.runs_nil]
      rfl
  | fuel + 1, s, h => by
      rw [strtokAll]
      cases hs : s.strtok delim with
      | none => exact (Runs.nextRun_none (strtok_none hs)).symm
      | some pr =>
          obtain ⟨piece, rest⟩ := pr
          have hn := strtok_some hs
          have hlt := Runs.nextRun_length hn
          rw [Runs.nextRun_some hn, List.map_cons, strtokAll_bytes (by omega)]

/-- The token up to the next delimiter, and the string after the delimiter, if there is one. -/
def strsep (delim : UInt8 → Bool) (s : CString) : CString × Option CString :=
  (⟨s.bytes.takeWhile fun b => !delim b, fun h => s.noNul ((List.takeWhile_sublist _).subset h)⟩,
    match h : s.bytes.dropWhile fun b => !delim b with
    | [] => none
    | _ :: rest =>
        some ⟨rest, fun h0 => s.noNul
          ((List.dropWhile_sublist _).subset (by rw [h]; exact List.mem_cons_of_mem _ h0))⟩)

/-- One call cuts the first piece off. -/
theorem strsep_spec (delim : UInt8 → Bool) (s : CString) :
    ((strsep delim s).2 = none ∧ s.bytes.splitOnP delim = [(strsep delim s).1.bytes]) ∨
    ∃ rest : CString, (strsep delim s).2 = some rest ∧ rest.bytes.length < s.bytes.length ∧
      s.bytes.splitOnP delim = (strsep delim s).1.bytes :: rest.bytes.splitOnP delim := by
  have hsolid : ∀ x ∈ s.bytes.takeWhile (fun b => !delim b), delim x = false := by
    intro x hx
    simpa using List.mem_takeWhile_imp hx
  have hcut := List.takeWhile_append_dropWhile (p := fun b => !delim b) (l := s.bytes)
  unfold strsep
  split
  · rename_i h
    rw [h, List.append_nil] at hcut
    refine .inl ⟨rfl, ?_⟩
    show s.bytes.splitOnP delim = [s.bytes.takeWhile fun b => !delim b]
    conv_lhs => rw [← hcut]
    exact List.splitOnP_eq_singleton hsolid
  · rename_i a rest h
    have ha : delim a = true := by
      have := List.head_dropWhile_not (fun b => !delim b) (l := s.bytes) (by simp [h])
      simpa [h] using this
    have hlen := congrArg List.length hcut
    rw [h, List.length_append, List.length_cons] at hlen
    refine .inr ⟨_, rfl, by show rest.length < _; omega, ?_⟩
    show s.bytes.splitOnP delim =
      (s.bytes.takeWhile fun b => !delim b) :: rest.splitOnP delim
    conv_lhs => rw [← hcut, h]
    rw [List.splitOnP_append_cons _ _ ha, List.splitOnP_eq_singleton hsolid]
    rfl

end CString
