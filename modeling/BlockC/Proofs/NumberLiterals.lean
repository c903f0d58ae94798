import BlockC.Code.Emit
import BlockC.Proofs.Scanning
import BlockC.Proofs.SourceText
import Mathlib.Data.Nat.Digits.Defs

/-! # Number literals keep their values

A number literal announces its base and writes digits of that base in groups (`Literal`).  Such
texts are just what the rule for numbers takes (`matches_number_iff`), and reading one gives the
number that the digits write, unless it takes more than 64 bits (`read?_text`).  What is written for
a number is such a literal again (`number_literals_keep_values`).
-/
namespace BlockC
namespace Numeral

/-- The bases that a literal can announce. -/
inductive Radix where
  | decimal | hexadecimal | binary
deriving DecidableEq, Repr

namespace Radix

def base : Radix → Nat
  | decimal => 10
  | hexadecimal => 16
  | binary => 2

/-- What may stand before the digits. -/
def heads : Radix → List (List Char)
  | decimal => [[]]
  | hexadecimal => ['x', 'X'].map (['0', ·])
  | binary => ['b', 'B'].map (['0', ·])

def isDigit : Radix → Char → Bool
  | decimal => Lexical.isDigit
  | hexadecimal => Lexical.isHexDigit
  | binary => Lexical.isBinaryDigit

end Radix

/-- What a digit counts, in whatever base. -/
def digitValue (c : Char) : Nat :=
  "0123456789abcdef".toList.idxOf c.toLower

/-- A number literal: a base, and groups of one digit or more with a mark between them. -/
structure Literal where
  radix : Radix
  head : List Char
  first : List Char
  more : List (List Char)
  announced : head ∈ radix.heads
  groups : ∀ g ∈ first :: more, g ≠ [] ∧ ∀ c ∈ g, radix.isDigit c = true

namespace Literal

/-- The characters of the literal. -/
def chars (l : Literal) : List Char :=
  l.head ++ (l.first ++ l.more.flatMap (separator :: ·))

/-- The literal as it is written. -/
def text (l : Literal) : String :=
  String.ofList l.chars

/-- The digits of all groups. -/
def digits (l : Literal) : List Char :=
  l.first ++ l.more.flatten

/-- The number that the digits write in their base. -/
def value (l : Literal) : Nat :=
  Nat.ofDigits l.radix.base (l.digits.map digitValue).reverse

theorem isDigit_of_mem (l : Literal) {c : Char} (h : c ∈ l.digits) : l.radix.isDigit c = true := by
  rcases List.mem_append.mp h with h | h
  · exact (l.groups l.first (by simp)).2 c h
  · obtain ⟨g, hg, hc⟩ := List.mem_flatten.mp h
    exact (l.groups g (by simp [hg])).2 c hc

theorem digits_ne_nil (l : Literal) : l.digits ≠ [] :=
  List.append_ne_nil_of_left_ne_nil (l.groups l.first (by simp)).1 _

end Literal

end Numeral

/-! ### What the rule for numbers takes -/

namespace Lexical

open Pattern Numeral

theorem matches_based_iff {marks : List Char} {p : Pattern} {w : List Char} :
    Matches (seq (char '0') (seq (among marks) p)) w ↔
      ∃ head ∈ marks.map (['0', ·]), ∃ rest, w = head ++ rest ∧ Matches p rest := by
  constructor
  · intro h
    obtain ⟨mark, rest, rfl, hmark, hrest⟩ := matches_based h
    exact ⟨['0', mark], List.mem_map_of_mem hmark, rest, rfl, hrest⟩
  · rintro ⟨head, hhead, rest, rfl, hrest⟩
    obtain ⟨mark, hmark, rfl⟩ := List.mem_map.mp hhead
    exact based_of_matches hmark hrest

/-- **The rule for numbers takes literals, and nothing else.** -/
theorem matches_number_iff {w : List Char} : Matches number w ↔ ∃ l : Literal, l.chars = w := by
  constructor
  · intro h
    -- One case for each base; the digits are those of a literal in all of them.
    have hliteral (radix : Radix) {head rest : List Char} (hhead : head ∈ radix.heads)
        (hrest : Matches (Pattern.grouped (one radix.isDigit) separator) rest) :
        ∃ l : Literal, l.chars = head ++ rest := by
      obtain ⟨first, more, rfl, hgroups⟩ := matches_grouped_iff.mp hrest
      exact ⟨⟨radix, head, first, more, hhead, hgroups⟩, rfl⟩
    rcases matches_alt h with h | h
    · obtain ⟨head, hhead, rest, rfl, hrest⟩ := matches_based_iff.mp h
      exact hliteral .hexadecimal hhead hrest
    rcases matches_alt h with h | h
    · obtain ⟨head, hhead, rest, rfl, hrest⟩ := matches_based_iff.mp h
      exact hliteral .binary hhead hrest
    · exact hliteral .decimal (List.mem_singleton_self []) h
  · rintro ⟨⟨radix, head, first, more, hhead, hgroups⟩, rfl⟩
    have hrest : Matches (Pattern.grouped (one radix.isDigit) separator) _ :=
      matches_grouped_iff.mpr ⟨first, more, rfl, hgroups⟩
    cases radix with
    | hexadecimal => exact .altLeft (matches_based_iff.mpr ⟨head, hhead, _, rfl, hrest⟩)
    | binary => exact .altRight (.altLeft (matches_based_iff.mpr ⟨head, hhead, _, rfl, hrest⟩))
    | decimal =>
      obtain rfl := List.mem_singleton.mp hhead
      exact .altRight (.altRight hrest)

end Lexical

/-! ### What is read -/

namespace Numeral

theorem digit?_ascii (radix : Radix) : ∀ n < 128, radix.isDigit (Char.ofNat n) = true →
    digit? radix.base (Char.ofNat n) = some (digitValue (Char.ofNat n)) := by
  cases radix <;> decide

theorem isWordPart_of_isDigit {radix : Radix} {c : Char} (h : radix.isDigit c = true) :
    Lexical.isWordPart c = true := by
  cases radix with
  | decimal => simp [Lexical.isWordPart, show Lexical.isDigit c = true from h]
  | hexadecimal => exact Lexical.isWordPart_of_isHexDigit h
  | binary => rcases Bool.or_eq_true_iff.mp h with h | h <;> rw [beq_iff_eq.mp h] <;> decide

theorem digit?_of_isDigit {radix : Radix} {c : Char} (h : radix.isDigit c = true) :
    digit? radix.base c = some (digitValue c) := by
  -- Digits are among the first characters, which are few enough to look at each.
  have hsmall : c.toNat < 128 := by
    have hrange := Lexical.range_of_isWordPart (isWordPart_of_isDigit h)
    omega
  rw [← Char.ofNat_toNat c] at h ⊢
  exact digit?_ascii radix c.toNat hsmall h

/-- Digits are read as the number that they write behind those before them. -/
theorem digits?_eq {radix : Radix} {cs : List Char} (h : ∀ c ∈ cs, radix.isDigit c = true)
    (value : Nat) : digits? radix.base value cs =
      some (Nat.ofDigits radix.base (cs.map digitValue).reverse +
        radix.base ^ cs.length * value) := by
  induction cs generalizing value with
  | nil => simp [digits?]
  | cons c cs ih =>
    obtain ⟨hc, hcs⟩ := List.forall_mem_cons.mp h
    rw [digits?, digit?_of_isDigit hc, Option.bind_some, ih hcs, List.map_cons, List.reverse_cons,
      Nat.ofDigits_append, Nat.ofDigits_singleton, List.length_reverse, List.length_map,
      List.length_cons, pow_succ]
    congr 1
    ring

namespace Literal

/-- The marks between the groups are all that is left out. -/
theorem filter_chars (l : Literal) : l.chars.filter (· != separator) = l.head ++ l.digits := by
  have hkeep {w : List Char} (h : ∀ c ∈ w, Lexical.isWordPart c = true) :
      w.filter (· != separator) = w := by
    refine List.filter_eq_self.mpr fun c hc => ?_
    have hne : c ≠ separator := by
      rintro rfl
      exact absurd (h _ hc) (by decide)
    simpa using hne
  have hhead : l.head.filter (· != separator) = l.head := by
    have hall : l.radix.heads.all (·.all Lexical.isWordPart) = true := by cases l.radix <;> rfl
    exact hkeep (List.all_eq_true.mp (List.all_eq_true.mp hall _ l.announced))
  have hgroup {g : List Char} (hg : g ∈ l.first :: l.more) : g.filter (· != separator) = g :=
    hkeep fun c hc => isWordPart_of_isDigit ((l.groups g hg).2 c hc)
  have hmore {more : List (List Char)} (h : ∀ g ∈ more, g ∈ l.first :: l.more) :
      (more.flatMap (separator :: ·)).filter (· != separator) = more.flatten := by
    induction more with
    | nil => rfl
    | cons g more ih =>
      obtain ⟨hg, hrest⟩ := List.forall_mem_cons.mp h
      simp [hgroup hg, ih hrest]
  rw [chars, List.filter_append, List.filter_append, hhead, hgroup (by simp),
    hmore fun g hg => List.mem_cons_of_mem _ hg, digits]

/-- The base is told by what stands before the digits. -/
theorem split_chars (l : Literal) : split (l.head ++ l.digits) = (l.radix.base, l.digits) := by
  have hdigit : ∀ c ∈ l.digits, l.radix.isDigit c = true := fun _ => l.isDigit_of_mem
  have hhead := l.announced
  generalize l.digits = ds at hdigit ⊢
  generalize l.head = head at hhead ⊢
  cases hr : l.radix with
  | decimal =>
    rw [hr] at hhead hdigit
    obtain rfl := List.mem_singleton.mp hhead
    refine split_decimal fun c hc => ?_
    simpa [Radix.isDigit, Lexical.isDigit] using hdigit c hc
  | hexadecimal | binary =>
    rw [hr] at hhead
    obtain ⟨mark, hmark, rfl⟩ := List.mem_map.mp hhead
    simp only [List.mem_cons, List.not_mem_nil, or_false] at hmark
    rcases hmark with rfl | rfl <;> rfl

/-- No digit is a sign. -/
theorem unsigned?_digits (l : Literal) : unsigned? l.radix.base l.digits = some l.value := by
  have hdigits := digits?_eq (fun c => l.isDigit_of_mem) 0
  rw [Nat.mul_zero, Nat.add_zero] at hdigits
  rw [value, ← hdigits]
  unfold unsigned?
  split
  · rename_i hnil
    exact absurd hnil l.digits_ne_nil
  · rename_i c cs hsign
    have hplus := isWordPart_of_isDigit (l.isDigit_of_mem (c := '+') (by simp [hsign]))
    exact absurd hplus (by decide)
  · rfl

/-- **A literal is read as the number that its digits write, if that fits in 64 bits.** -/
theorem read?_text (l : Literal) :
    read? l.text = if l.value < limit then some (UInt64.ofNat l.value) else none := by
  simp only [read?, text, String.toList_ofList, l.filter_chars, l.split_chars, l.unsigned?_digits]

theorem read?_text_eq_some_iff (l : Literal) (v : UInt64) :
    read? l.text = some v ↔ v.toNat = l.value := by
  have hsize : v.toNat < limit := v.toNat_lt
  rw [l.read?_text]
  by_cases h : l.value < limit
  · have hvalue : (UInt64.ofNat l.value).toNat = l.value := UInt64.toNat_ofNat_of_lt' h
    rw [if_pos h, Option.some.injEq, ← UInt64.toNat_inj, hvalue, eq_comm]
  · simp only [if_neg h, reduceCtorEq, false_iff]
    omega

theorem read?_text_eq_none_iff (l : Literal) : read? l.text = none ↔ limit ≤ l.value := by
  rw [l.read?_text]
  by_cases h : l.value < limit <;> simp [h, Nat.not_lt.mp]

end Literal
end Numeral

open Numeral Surface

/-- A text that the rule for numbers takes whole is one token. -/
theorem tokens_number {text : String} (h : Pattern.Matches Lexical.number text.toList) :
    ∃ t, tokens text = [t] ∧ t.kind = .number ∧ t.value = text := by
  have hscan : Lexical.Scans (text.toList ++ []) [(.number, text)] [] :=
    Lexical.scans_number h (by simp [Breaks])
  rw [List.append_nil] at hscan
  obtain ⟨t, htokens, hword⟩ := List.map_eq_singleton_iff.mp (Lexical.words_of_scans hscan)
  exact ⟨t, htokens, congrArg Prod.fst hword, congrArg Prod.snd hword⟩

/-- **Number literals keep their values.**  The numbers of a text are literals, and each literal is
one.  A literal stands for the number that its digits write in its base if that is below `2 ^ 64`,
and is refused with its text otherwise.  What is written for a number is a literal for it. -/
theorem number_literals_keep_values :
    (∀ source, ∀ t ∈ tokens source, t.kind = .number → ∃ l : Literal, l.text = t.value) ∧
    (∀ l : Literal, ∃ t, tokens l.text = [t] ∧ t.kind = .number ∧ t.value = l.text) ∧
    (∀ (l : Literal) source head, textOf source head = .ok l.text →
      (∀ v : UInt64, numberOf source head = .ok v ↔ v.toNat = l.value) ∧
      (numberOf source head = .error ⟨.numberParse l.text, head.span.start⟩ ↔ 2 ^ 64 ≤ l.value)) ∧
    ∀ table (v : UInt64) span, ∃ text t, Code.expr table (.number v span) = .ok text ∧
      tokens text = [t] ∧ t.kind = .number ∧ numberOf text.toUTF8 (Node.leaf t).head = .ok v := by
  refine ⟨fun source t ht hk => ?_, fun l => ?_, fun l source head htext => ⟨fun v => ?_, ?_⟩,
    fun table v span => ?_⟩
  · have hlexeme := (standsIn_of_mem_tokens ht).lexeme
    rw [hk] at hlexeme
    obtain ⟨l, hl⟩ := Lexical.matches_number_iff.mp hlexeme
    exact ⟨l, by rw [Literal.text, hl, String.ofList_toList]⟩
  · refine tokens_number (Lexical.matches_number_iff.mpr ⟨l, ?_⟩)
    rw [Literal.text, String.toList_ofList]
  · rw [numberOf_eq_ok_iff htext, l.read?_text_eq_some_iff]
  · rw [numberOf_eq_error_iff htext, l.read?_text_eq_none_iff]
    rfl
  · obtain ⟨t, htokens, hk, hvalue⟩ := tokens_number (Lexical.matches_decimal v.toNat)
    refine ⟨decimal v.toNat, t, rfl, htokens, hk, ?_⟩
    have htext : textOf (decimal v.toNat).toUTF8 (Node.leaf t).head = .ok t.value :=
      (standsIn_of_mem_tokens (by simp [htokens])).text _ rfl
    rw [numberOf_eq_ok_iff htext, hvalue, read?_decimal]

/-- Marks and letters of either case in base sixteen, and the least number of base ten that takes
more than 64 bits. -/
theorem number_literals_keep_values_sample :
    (∃ t, tokens "0xFF'fe" = [t] ∧ numberOf "0xFF'fe".toUTF8 (Node.leaf t).head = .ok 65534) ∧
    ∃ t, tokens "18446744073709551616" = [t] ∧
      numberOf "18446744073709551616".toUTF8 (Node.leaf t).head =
        .error ⟨.numberParse "18446744073709551616", t.span.start⟩ := by
  obtain ⟨-, htoken, hread, -⟩ := number_literals_keep_values
  have hleaf (l : Literal) : ∃ t, tokens l.text = [t] ∧
      textOf l.text.toUTF8 (Node.leaf t).head = .ok l.text := by
    obtain ⟨t, htokens, -, hvalue⟩ := htoken l
    have hmem : t ∈ tokens l.text := by simp [htokens]
    exact ⟨t, htokens, hvalue ▸ (standsIn_of_mem_tokens hmem).text (Node.leaf t).head rfl⟩
  constructor
  · let l : Literal := ⟨.hexadecimal, ['0', 'x'], ['F', 'F'], [['f', 'e']], by decide,
      by simp [Radix.isDigit, Lexical.isHexDigit, Lexical.isDigit]⟩
    obtain ⟨t, htokens, htext⟩ := hleaf l
    have hvalue : l.value = 65534 := by decide
    exact ⟨t, htokens, ((hread l _ _ htext).1 65534).mpr (by rw [hvalue]; decide)⟩
  · let l : Literal := ⟨.decimal, [], "18446744073709551616".toList, [], by decide,
      by simp [Radix.isDigit, Lexical.isDigit]⟩
    obtain ⟨t, htokens, htext⟩ := hleaf l
    have hlarge : 2 ^ 64 ≤ l.value := by decide
    exact ⟨t, htokens, (hread l _ _ htext).2.mpr hlarge⟩

end BlockC
