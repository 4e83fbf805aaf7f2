import Mathlib.Data.List.TakeWhile

/-!
# Byte strings of the C++ standard library

The part of `std::string` that the repository uses.  A string is a list of
bytes; `StdString` adds the bound that every `std::string` meets, so that the
entry points of the model take no string a program cannot hold.

`size_t` values are natural numbers.  `npos` is the largest of them, and
`subSize` is the subtraction that wraps around.  Everything else stays below
`maxSize` and needs no wrap.
-/

namespace Piconaut.CppStd

/-- The bytes of a string. -/
abbrev Str := List UInt8

/-- A character literal of the source. -/
def ch (c : Char) : UInt8 := c.toUInt8

/-- A string literal of the source. -/
def str (s : String) : Str := s.toList.map ch

/-- `std::string::max_size()` on a 64-bit target. -/
def maxSize : Nat := 0x7fffffffffffffff

/-- `std::string::npos`, which is `SIZE_MAX`. -/
def npos : Nat := 0xffffffffffffffff

/-- A `std::string`: its bytes, and the bound on their number. -/
structure StdString where
  bytes : Str
  size_le : bytes.length ≤ maxSize

/-- The `std::string` of a literal. -/
def StdString.literal (s : Str) (h : decide (s.length ≤ maxSize) = true) : StdString :=
  ⟨s, of_decide_eq_true h⟩

/-- Exceptions that the modelled functions throw. -/
inductive StdException where
  | invalidArgument (what : Str)
  | outOfRange
  | badFunctionCall
  | runtimeError (what : Str)
  deriving DecidableEq

/-- Subtraction of `size_t` values. -/
def subSize (a b : Nat) : Nat := (a + (npos + 1) - b) % (npos + 1)

/-- `str.find(c, pos)`: the least position from `pos` on that holds `c`, or
`npos`. -/
def find (s : Str) (c : UInt8) (pos : Nat) : Nat :=
  match (s.drop pos).idxOf? c with
  | some i => pos + i
  | none => npos

/-- `str.substr(pos, n)`: at most `n` bytes from `pos` on. -/
def substr (s : Str) (pos n : Nat) : Except StdException Str :=
  if s.length < pos then .error .outOfRange else .ok ((s.drop pos).take n)

/-- `isspace` in the C locale. -/
def isspace (c : UInt8) : Bool := c = ch ' ' || (0x09 ≤ c && c ≤ 0x0d)

/-- `str.front()`.  On an empty string this reads the terminating NUL. -/
def front (s : Str) : UInt8 := s.headD 0

/-- `str.back()`. -/
def back (s : Str) : UInt8 := s.getLastD 0

/-- The string that a reader of `str.c_str()` sees: the bytes up to the first
NUL. -/
def cStr (s : Str) : Str := s.takeWhile (· ≠ 0)

theorem cStr_of_not_mem {s : Str} (h : 0 ∉ s) : cStr s = s := by
  induction s with
  | nil => rfl
  | cons c s ih =>
    rw [List.mem_cons, not_or] at h
    have hc : c ≠ 0 := Ne.symm h.1
    have htail : s.takeWhile (· ≠ 0) = s := ih h.2
    rw [cStr, List.takeWhile_cons, htail]
    simp [hc]

theorem zero_not_mem_cStr (s : Str) : 0 ∉ cStr s := fun h => by
  simpa using List.mem_takeWhile_imp h

/-- A reader of the C string sees the whole string exactly if it has no NUL. -/
theorem cStr_eq_self_iff (s : Str) : cStr s = s ↔ 0 ∉ s :=
  ⟨fun h => h ▸ zero_not_mem_cStr s, cStr_of_not_mem⟩

theorem cStr_append_zero {s : Str} (h : 0 ∉ s) (rest : Str) : cStr (s ++ 0 :: rest) = s := by
  have hpos : ∀ c ∈ s, (decide (c ≠ 0)) = true := by
    intro c hc
    rw [decide_eq_true_iff]
    rintro rfl
    exact h hc
  rw [cStr, List.takeWhile_append_of_pos hpos, List.takeWhile_cons_of_neg (by decide),
    List.append_nil]

/-- What the reader does not see starts with a NUL. -/
theorem eq_append_zero_of_cStr_ne {s : Str} (h : cStr s ≠ s) :
    ∃ rest, s = cStr s ++ 0 :: rest := by
  induction s with
  | nil => exact absurd rfl h
  | cons c s ih =>
    by_cases hc : c = 0
    · exact ⟨s, by simp [cStr, hc]⟩
    · have hcons : cStr (c :: s) = c :: cStr s := by simp [cStr, hc]
      rw [hcons] at h ⊢
      obtain ⟨rest, hrest⟩ := ih fun heq => h (by rw [heq])
      exact ⟨rest, by rw [List.cons_append, ← hrest]⟩

theorem subSize_of_le {a b : Nat} (h : b ≤ a) (ha : a ≤ npos) : subSize a b = a - b := by
  unfold subSize npos at *
  omega

/-- A count that reaches the end of the string, or more, gives the rest of it. -/
theorem substr_rest {s : Str} {pos n : Nat} (hpos : pos ≤ s.length)
    (hn : s.length ≤ pos + n) : substr s pos n = .ok (s.drop pos) := by
  rw [substr, if_neg (by omega), List.take_of_length_le (by rw [List.length_drop]; omega)]

theorem StdString.size_lt (s : StdString) : s.bytes.length < npos := by
  have := s.size_le
  unfold maxSize at this
  unfold npos
  omega

/-- `find` answers `npos` exactly when no byte from `pos` on is `c`. -/
theorem find_eq_npos_iff {s : Str} {c : UInt8} {pos : Nat} (hs : s.length < npos)
    (hpos : pos ≤ s.length) : find s c pos = npos ↔ c ∉ s.drop pos := by
  unfold find
  cases hidx : (s.drop pos).idxOf? c with
  | none => simpa using List.idxOf?_eq_none_iff.1 hidx
  | some i =>
    obtain ⟨hlt, hget, -⟩ := List.idxOf?_eq_some_iff.1 hidx
    rw [List.length_drop] at hlt
    have hmem : c ∈ s.drop pos := hget ▸ List.getElem_mem _
    simp only [hmem, not_true_eq_false, iff_false]
    omega

/-- Otherwise it splits the rest of the string at the first `c`. -/
theorem find_spec {s : Str} {c : UInt8} {pos : Nat} (h : find s c pos ≠ npos) :
    ∃ tok rest, s.drop pos = tok ++ c :: rest ∧ c ∉ tok ∧
      find s c pos = pos + tok.length := by
  unfold find at h ⊢
  cases hidx : (s.drop pos).idxOf? c with
  | none => simp [hidx] at h
  | some i =>
    obtain ⟨hlt, hget, hmin⟩ := List.idxOf?_eq_some_iff.1 hidx
    refine ⟨(s.drop pos).take i, (s.drop pos).drop (i + 1), ?_, ?_, ?_⟩
    · have hcons := List.getElem_cons_drop hlt
      rw [hget] at hcons
      rw [hcons, List.take_append_drop]
    · intro hmem
      obtain ⟨j, hj, hjc⟩ := List.getElem_of_mem hmem
      rw [List.getElem_take] at hjc
      exact hmin j (by rw [List.length_take] at hj; omega) hjc
    · show pos + i = _
      rw [List.length_take]
      omega

end Piconaut.CppStd
