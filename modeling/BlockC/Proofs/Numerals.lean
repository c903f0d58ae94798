import BlockC.Text.Numeral

/-! # Numerals

The decimal text of a number holds digits only, and reading it gives the number back.
-/
namespace BlockC
namespace Numeral

theorem decimal_ne_nil (n : Nat) : (decimal n).toList ≠ [] := by
  simp [decimal, Nat.toDigits_ne_nil]

theorem isDigit_of_mem_decimal {n : Nat} {c : Char} (h : c ∈ (decimal n).toList) :
    '0' ≤ c ∧ c ≤ '9' := by
  have hmem : c ∈ Nat.toDigits 10 n := by simpa [decimal] using h
  have hdigit := Nat.isDigit_of_mem_toDigits (by decide) (by decide) hmem
  simp only [Char.isDigit, Bool.and_eq_true, decide_eq_true_eq] at hdigit
  exact hdigit

/-- Digits of base ten are read as the number that they write. -/
theorem digits?_decimal {cs : List Char} (h : ∀ c ∈ cs, '0' ≤ c ∧ c ≤ '9') (value : Nat) :
    digits? 10 value cs = some (Nat.ofDigitChars 10 cs value) := by
  induction cs generalizing value with
  | nil => rfl
  | cons c cs ih =>
    have hc := h c (by simp)
    have hsmall : c.toNat - 48 < 10 := by
      have hle : c.toNat ≤ 57 := hc.2
      omega
    have hdigit : digit? 10 c = some (c.toNat - '0'.toNat) := by
      simp [digit?, hc, hsmall]
    rw [digits?, hdigit, Option.bind_some, ih fun d hd => h d (by simp [hd]),
      Nat.ofDigitChars_cons, Nat.mul_comm]

/-- Digits of base ten announce no other base. -/
theorem split_decimal {cs : List Char} (h : ∀ c ∈ cs, '0' ≤ c ∧ c ≤ '9') : split cs = (10, cs) := by
  unfold split
  split
  case h_5 => rfl
  all_goals exact absurd (h _ (List.mem_cons_of_mem _ (List.mem_cons_self ..))).2 (by decide)

theorem unsigned?_decimal {cs : List Char} (h : ∀ c ∈ cs, '0' ≤ c ∧ c ≤ '9') (hne : cs ≠ []) :
    unsigned? 10 cs = digits? 10 0 cs := by
  unfold unsigned?
  split
  · exact absurd rfl hne
  · exact absurd (h _ (List.mem_cons_self ..)).1 (by decide)
  · rfl

/-- **The decimal text of a number is read as that number.** -/
theorem read?_decimal (value : UInt64) : read? (decimal value.toNat) = some value := by
  have hdigits : ∀ c ∈ (decimal value.toNat).toList, '0' ≤ c ∧ c ≤ '9' :=
    fun c => isDigit_of_mem_decimal
  have hplain : (decimal value.toNat).toList.filter (· != separator) =
      (decimal value.toNat).toList := by
    refine List.filter_eq_self.mpr fun c hc => ?_
    have hne : c ≠ separator := by
      rintro rfl
      exact absurd (hdigits _ hc).1 (by decide)
    simpa using hne
  have hvalue : digits? 10 0 (decimal value.toNat).toList = some value.toNat := by
    rw [digits?_decimal hdigits, decimal, String.toList_ofList,
      Nat.ofDigitChars_toDigits (by decide) (by decide)]
  have hlimit : value.toNat < limit := value.toNat_lt
  simp [read?, hplain, split_decimal hdigits, unsigned?_decimal hdigits (decimal_ne_nil _), hvalue,
    hlimit]

end Numeral
end BlockC
