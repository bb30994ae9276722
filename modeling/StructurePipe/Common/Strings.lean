import StructurePipe.Lib.TextLines

/-!
# The strings of the program

A `std::string` is a sequence of bytes with no structure of its own: it is a list of characters
here, one character for one byte, with no restriction to printable or valid text.  The few library
functions on strings that several parts of the program share are collected in this file.
-/

namespace StructurePipe

/-- A `std::string`. -/
abbrev Str := List Char

instance : LawfulBEq Str := inferInstance

/-- `boost::algorithm::join`. -/
abbrev join (pieces : List Str) (delimiter : Str) : Str := delimiter.intercalate pieces

/-- `isspace` in the classic locale: the blank, and the tab, newline, vertical tab, form feed and
carriage return. -/
def isspace (c : Char) : Bool := c == ' ' || (9 ≤ c.toNat && c.toNat ≤ 13)

/-- An unsigned number as an output stream prints it, in decimal. -/
def decimal (n : ℕ) : Str := Nat.toDigits 10 n

theorem isDigit_of_mem_decimal {n : ℕ} {c : Char} (h : c ∈ decimal n) : c.isDigit :=
  Nat.isDigit_of_mem_toDigits (by decide) (by decide) h

theorem decimal_injective : Function.Injective decimal := by
  intro m n h
  have hread := congrArg (fun l => Nat.ofDigitChars 10 l 0) h
  simpa [decimal] using hread

/-- A printed number stays on its line. -/
theorem newline_notMem_decimal (n : ℕ) : '\n' ∉ decimal n := by
  intro h
  exact absurd (isDigit_of_mem_decimal h) (by decide)

end StructurePipe
