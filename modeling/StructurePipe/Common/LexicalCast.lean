import StructurePipe.Common.Strings
import StructurePipe.Lib.Tokens

/-!
# Numbers in strings

`boost::lexical_cast` accepts a string as an integer if it consists of decimal digits, with at most one
sign in front.  That goes for unsigned types too: the digits must fit the type, and with a minus sign
the number is negated in the arithmetic of the type.

What it accepts as a `double` is left open, apart from three facts: not the empty string, nothing with
a blank at either end, and a `*` only between the brackets of `nan(...)`.

* `digitsValue`, `signedValue` — the numbers written in decimal, without and with a sign;
* `lexicalCastUnsigned`, `lexicalCastInt` — the ones that are accepted;
* `lexicalCastUnsigned_of_digits` — an unsigned number that fits is cast to itself.
-/

namespace StructurePipe.Common

/-- `lexical_cast<double>`, with the zero of its type. -/
structure DoubleCast (δ : Type*) where
  cast : Str → Option δ
  zero : δ
  cast_nil : cast [] = none
  trim_eq : ∀ s value, cast s = some value → Tokens.trim isspace s = s
  paren_mem : ∀ a b value, cast (a ++ '*' :: b) = some value → ')' ∈ b

/-- The value of decimal digits; there must be one at least. -/
def digitsValue (s : Str) : Option ℕ :=
  if s ≠ [] ∧ s.all Char.isDigit = true then some (Nat.ofDigitChars 10 s 0) else none

/-- The value of decimal digits with at most one sign. -/
def signedValue : Str → Option ℤ
  | '-' :: s => (digitsValue s).map fun n : ℕ => -(n : ℤ)
  | '+' :: s => (digitsValue s).map fun n : ℕ => (n : ℤ)
  | s => (digitsValue s).map fun n : ℕ => (n : ℤ)

/-- `lexical_cast<unsigned int>`. -/
def lexicalCastUnsigned (s : Str) : Option ℕ :=
  (signedValue s).bind fun v => if v.natAbs < 2 ^ 32 then some (v % 2 ^ 32).toNat else none

/-- `lexical_cast<int>`. -/
def lexicalCastInt (s : Str) : Option ℤ :=
  (signedValue s).bind fun v => if -2 ^ 31 ≤ v ∧ v < 2 ^ 31 then some v else none

theorem isDigit_of_digitsValue {s : Str} {n : ℕ} (h : digitsValue s = some n) :
    s ≠ [] ∧ ∀ c ∈ s, c.isDigit = true := by
  rw [digitsValue] at h
  split at h
  · next hdigits => exact ⟨hdigits.1, List.all_eq_true.mp hdigits.2⟩
  · exact absurd h (by simp)

/-- Digits have no sign in front. -/
theorem signedValue_of_digits {s : Str} {n : ℕ} (h : digitsValue s = some n) :
    signedValue s = some (n : ℤ) := by
  have hdigits := (isDigit_of_digitsValue h).2
  rw [signedValue.eq_def]
  split
  · exact absurd (hdigits '-' (by simp)) (by decide)
  · exact absurd (hdigits '+' (by simp)) (by decide)
  · rw [h, Option.map_some]

/-- What a number with a sign is made of. -/
theorem mem_of_signedValue {s : Str} {v : ℤ} (h : signedValue s = some v) {c : Char} (hc : c ∈ s) :
    c = '-' ∨ c = '+' ∨ c.isDigit = true := by
  rw [signedValue.eq_def] at h
  split at h
  · next s =>
      obtain ⟨n, hn, _⟩ := Option.map_eq_some_iff.mp h
      rcases List.mem_cons.mp hc with heq | hmem
      · exact Or.inl heq
      · exact Or.inr (Or.inr ((isDigit_of_digitsValue hn).2 c hmem))
  · next s =>
      obtain ⟨n, hn, _⟩ := Option.map_eq_some_iff.mp h
      rcases List.mem_cons.mp hc with heq | hmem
      · exact Or.inr (Or.inl heq)
      · exact Or.inr (Or.inr ((isDigit_of_digitsValue hn).2 c hmem))
  · obtain ⟨n, hn, _⟩ := Option.map_eq_some_iff.mp h
    exact Or.inr (Or.inr ((isDigit_of_digitsValue hn).2 c hc))

theorem notMem_of_signedValue {s : Str} {v : ℤ} (h : signedValue s = some v) {c : Char}
    (hc : c.isDigit = false) (hminus : c ≠ '-') (hplus : c ≠ '+') : c ∉ s := by
  intro hmem
  rcases mem_of_signedValue h hmem with heq | heq | hdigit
  · exact hminus heq
  · exact hplus heq
  · rw [hc] at hdigit
    exact Bool.false_ne_true hdigit

theorem isspace_of_isDigit {c : Char} (h : c.isDigit = true) : isspace c = false := by
  have hrange : 48 ≤ c.toNat ∧ c.toNat ≤ 57 := Char.isDigit_iff_toNat.mp h
  have hblank : c ≠ ' ' := by
    rintro rfl
    exact absurd hrange.1 (by decide)
  rw [isspace, Bool.or_eq_false_iff, Bool.and_eq_false_iff]
  exact ⟨beq_eq_false_iff_ne.mpr hblank, Or.inr (decide_eq_false (by omega))⟩

/-- There is nothing to trim off a number. -/
theorem trim_of_signedValue {s : Str} {v : ℤ} (h : signedValue s = some v) :
    Tokens.trim isspace s = s := by
  have hne : s ≠ [] := by
    rintro rfl
    exact absurd h (by simp [signedValue, digitsValue])
  have hword : Tokens.Word isspace s := by
    refine ⟨hne, fun c hc => ?_⟩
    rcases mem_of_signedValue h hc with rfl | rfl | hdigit
    · rfl
    · rfl
    · exact isspace_of_isDigit hdigit
  simpa using Tokens.trim_append (l := []) (r := []) (by simp) hword (by simp)

/-- **A number that fits is cast to itself.** -/
theorem lexicalCastUnsigned_of_digits {s : Str} {n : ℕ} (h : digitsValue s = some n)
    (hn : n < 2 ^ 32) : lexicalCastUnsigned s = some n := by
  rw [lexicalCastUnsigned, signedValue_of_digits h, Option.bind_some, Int.natAbs_natCast, if_pos hn]
  congr 1
  omega

theorem exists_signedValue_of_unsigned {s : Str} {n : ℕ} (h : lexicalCastUnsigned s = some n) :
    ∃ v, signedValue s = some v := by
  obtain ⟨v, hv, _⟩ := Option.bind_eq_some_iff.mp h
  exact ⟨v, hv⟩

theorem exists_signedValue_of_int {s : Str} {n : ℤ} (h : lexicalCastInt s = some n) :
    ∃ v, signedValue s = some v := by
  obtain ⟨v, hv, _⟩ := Option.bind_eq_some_iff.mp h
  exact ⟨v, hv⟩

/-- The cast on texts of whole numbers; it accepts nothing else. -/
def integerCast : DoubleCast ℤ where
  cast := signedValue
  zero := 0
  cast_nil := rfl
  trim_eq _ _ h := trim_of_signedValue h
  paren_mem a b _ h :=
    absurd (by simp) (notMem_of_signedValue h (c := '*') (by decide) (by decide) (by decide))

end StructurePipe.Common
