import OsProjects.CTypes
import Mathlib.Data.List.Basic
import Mathlib.Algebra.Order.Group.Nat

/-! # Byte strings and decimal numerals

C strings are lists of bytes here; `str` spells a literal.  `decimal n` is what `printf("%d")`
writes for a non-negative number, `digitsValue` reads digits back
(`digitsValue_decimal`, hence `decimal_injective`). -/

namespace OsProjects

/-- The bytes of an ASCII literal. -/
def str (s : String) : List Byte := s.toList.map fun c => c.toNat.toUInt8

/-- `isdigit` of the C locale. -/
def isDigit (b : Byte) : Bool := 48 ≤ b && b ≤ 57

/-- The decimal numeral of a natural number. -/
def decimal (n : ℕ) : List Byte := (Nat.toDigits 10 n).map fun c => c.toNat.toUInt8

/-- The number that a string of digits denotes. -/
def digitsValue (ds : List Byte) : ℕ := ds.foldl (fun v b => 10 * v + (b.toNat - 48)) 0

theorem toNat_toUInt8_of_isDigit {c : Char} (hc : c.isDigit) : c.toNat.toUInt8.toNat = c.toNat := by
  have hle : c.toNat ≤ 57 := (Char.isDigit_iff_toNat.mp hc).2
  simp only [UInt8.toNat_ofNat']
  omega

theorem isDigit_of_mem_decimal {n : ℕ} {b : Byte} (hb : b ∈ decimal n) : isDigit b = true := by
  obtain ⟨c, hc, rfl⟩ := List.mem_map.mp hb
  have hd := Nat.isDigit_of_mem_toDigits (by omega) (by omega) hc
  have hn := toNat_toUInt8_of_isDigit hd
  obtain ⟨h₁, h₂⟩ := Char.isDigit_iff_toNat.mp hd
  simp only [isDigit, Bool.and_eq_true, decide_eq_true_eq, UInt8.le_iff_toNat_le, hn]
  exact ⟨h₁, h₂⟩

theorem decimal_ne_nil (n : ℕ) : decimal n ≠ [] := by
  simp [decimal, Nat.toDigits_ne_nil]

theorem digitsValue_decimal (n : ℕ) : digitsValue (decimal n) = n := by
  have hfold : ∀ (cs : List Char) (v : ℕ), (∀ c ∈ cs, c.isDigit) →
      (cs.map fun c => c.toNat.toUInt8).foldl (fun v b => 10 * v + (b.toNat - 48)) v =
        Nat.ofDigitChars 10 cs v := by
    intro cs
    induction cs with
    | nil =>
        intro v _
        simp
    | cons c cs ih =>
        intro v hcs
        rw [List.map_cons, List.foldl_cons, Nat.ofDigitChars_cons,
          toNat_toUInt8_of_isDigit (hcs c List.mem_cons_self)]
        exact ih _ fun d hd => hcs d (List.mem_cons_of_mem c hd)
  unfold digitsValue decimal
  rw [hfold _ _ fun c hc => Nat.isDigit_of_mem_toDigits (by omega) (by omega) hc]
  exact Nat.ofDigitChars_ten_toDigits

theorem decimal_injective : Function.Injective decimal := by
  intro m n h
  rw [← digitsValue_decimal m, h, digitsValue_decimal]

end OsProjects
