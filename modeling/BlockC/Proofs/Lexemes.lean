import BlockC.Proofs.PatternMatch
import BlockC.Token.Scan

/-! # The texts of tokens

What the text of a token of each kind looks like (`IsLexeme`).  The scanner only ever takes such
texts, and takes them whole (`nextLexeme_sound`).
-/
namespace BlockC
namespace Lexical

open Pattern

/-- A letter or underscore, then letters, digits and underscores. -/
def IsWord (cs : List Char) : Prop :=
  ∃ c ds, cs = c :: ds ∧ isWordStart c = true ∧ ∀ d ∈ ds, isWordPart d = true

theorem isWord_of_all {c : Char} {cs : List Char} (hc : isWordStart c = true)
    (hcs : cs.all isWordPart = true) : IsWord (c :: cs) :=
  ⟨c, cs, rfl, hc, List.all_eq_true.mp hcs⟩

theorem range_of_isWordPart {c : Char} (h : isWordPart c = true) :
    48 ≤ c.toNat ∧ c.toNat ≤ 122 := by
  simp only [isWordPart, isWordStart, isDigit, Bool.or_eq_true, Bool.and_eq_true,
    decide_eq_true_eq, beq_iff_eq, Char.le_def, UInt32.le_iff_toNat_le] at h
  rcases h with ((h | h) | rfl) | h
  · exact ⟨Nat.le_trans (by decide) h.1, h.2⟩
  · exact ⟨Nat.le_trans (by decide) h.1, Nat.le_trans h.2 (by decide)⟩
  · decide
  · exact ⟨h.1, Nat.le_trans h.2 (by decide)⟩

theorem not_isBlank_of_isWordPart {c : Char} (h : isWordPart c = true) :
    Text.isBlank c = false := by
  have hval : c.toNat = c.val.toNat := rfl
  have hrange := range_of_isWordPart h
  simp only [Text.isBlank, Bool.or_eq_false_iff, Bool.and_eq_false_iff, decide_eq_false_iff_not,
    beq_eq_false_iff_ne]
  omega

/-- A word that is not reserved. -/
def IsName (s : String) : Prop :=
  IsWord s.toList ∧ Keyword.ofText? s = none

theorem isName_iff (s : String) : IsName s ↔
    (s.toList.head?.any isWordStart && s.toList.tail.all isWordPart &&
      (Keyword.ofText? s).isNone) = true := by
  unfold IsName IsWord
  cases h : s.toList with
  | nil => simp
  | cons c cs => simp [List.all_eq_true, and_assoc]

instance decidableIsName : DecidablePred IsName :=
  fun s => decidable_of_iff _ (isName_iff s).symm

/-- Text that may stand between two quotes: a backslash takes the next character along. -/
inductive Quotable : List Char → Prop
  | nil : Quotable []
  | plain {c : Char} {cs : List Char} (quote : c ≠ '"') (backslash : c ≠ '\\') (feed : c ≠ '\n')
      (rest : Quotable cs) : Quotable (c :: cs)
  | escape {c : Char} {cs : List Char} (feed : c ≠ '\n') (rest : Quotable cs) :
      Quotable ('\\' :: c :: cs)

/-- A text in quotes. -/
def IsQuoted (s : String) : Prop :=
  ∃ body, s.toList = '"' :: (body ++ ['"']) ∧ Quotable body

/-- The texts that a token of some kind can have. -/
def IsLexeme : Kind → String → Prop
  | .eof, _ => False
  | .unknown, s => ∃ c, s.toList = [c]
  | .number, s => Matches number s.toList
  | .string, s => IsQuoted s
  | .identifier, s => IsName s
  | .punct p, s => s = p.text
  | .keyword k, s => s = k.text

/-! ### What the rules match -/

theorem isWord_of_matches {w : List Char} (h : Matches word w) : IsWord w := by
  obtain ⟨u, v, rfl, hu, hv⟩ := matches_seq h
  obtain ⟨c, rfl, hc⟩ := matches_one hu
  exact ⟨c, v, rfl, hc, matches_many_one hv⟩

/-- The inside of a quoted text, as the pattern for it. -/
theorem quotable_of_matches {w : List Char}
    (h : Matches (many (alt (Pattern.except ['"', '\\', '\n'])
      (seq (char '\\') (Pattern.except ['\n'])))) w) : Quotable w := by
  generalize hp : many _ = p at h
  induction h with
  | one | seq | altLeft | altRight => cases hp
  | manyNil => exact .nil
  | manyCons ha _ _ ih =>
    cases hp
    rcases matches_alt ha with h | h
    · obtain ⟨c, rfl, hc⟩ := matches_one h
      simp only [List.contains_cons, List.contains_nil, Bool.or_false, Bool.not_eq_true',
        Bool.or_eq_false_iff, beq_eq_false_iff_ne] at hc
      exact .plain hc.1 hc.2.1 hc.2.2 (ih rfl)
    · obtain ⟨u, v, rfl, hu, hv⟩ := matches_seq h
      obtain ⟨c, rfl, hc⟩ := matches_one hv
      rw [matches_char hu]
      simp only [List.contains_cons, List.contains_nil, Bool.or_false, Bool.not_eq_true',
        beq_eq_false_iff_ne] at hc
      exact .escape hc (ih rfl)

theorem isQuoted_of_matches {w : List Char} (h : Matches string w) :
    IsQuoted (String.ofList w) := by
  obtain ⟨u, v, rfl, hu, hv⟩ := matches_seq h
  obtain ⟨body, u', rfl, hbody, hu'⟩ := matches_seq hv
  refine ⟨body, ?_, quotable_of_matches hbody⟩
  rw [matches_char hu, matches_char hu']
  simp

theorem eq_text_of_matches {p : Punct} {w : List Char}
    (h : Matches (Rule.ofPunct p).pattern w) : String.ofList w = p.text := by
  cases p <;> exact congrArg String.ofList (matches_text h)

theorem eq_text_of_ofText? {s : String} {k : Keyword} (h : Keyword.ofText? s = some k) :
    s = k.text := by
  unfold Keyword.ofText? at h
  have hk := List.find?_some h
  exact (beq_iff_eq.mp hk).symm

/-! ### What the scanner takes -/

/-- What the rules of the table make of a match is a token with a text of its kind. -/
theorem isLexeme_of_rule {r : Rule} {w : List Char} {kind : Kind} (hr : r ∈ rules)
    (hw : Matches r.pattern w) (hk : Lexeme.kind? ⟨some r.action, w⟩ = some kind) :
    IsLexeme kind (String.ofList w) := by
  rcases List.mem_append.mp hr with hr | hr
  · simp only [List.mem_cons, List.not_mem_nil, or_false] at hr
    rcases hr with rfl | rfl | rfl | rfl | rfl | rfl
    · simp only [Lexeme.kind?] at hk
      split at hk
      · rename_i k hkw
        obtain rfl := Option.some.inj hk
        exact eq_text_of_ofText? hkw
      · rename_i hkw
        obtain rfl := Option.some.inj hk
        exact ⟨by simpa using isWord_of_matches hw, hkw⟩
    · obtain rfl := Option.some.inj hk
      simpa [IsLexeme] using hw
    · cases hk
    · obtain rfl := Option.some.inj hk
      exact isQuoted_of_matches hw
    · cases hk
    · cases hk
  · obtain ⟨p, -, rfl⟩ := List.mem_map.mp hr
    obtain rfl := Option.some.inj hk
    exact eq_text_of_matches hw

theorem firstMatch?_split {table : List Rule} {s front rest : List Char} {r : Rule}
    (h : firstMatch? table s = some (r, front, rest)) :
    r ∈ table ∧ r.pattern.split? s = some (front, rest) ∧ front ≠ [] := by
  obtain ⟨r', hr', hsome⟩ := List.exists_of_findSome?_eq_some h
  split at hsome
  · rename_i c cs rest' hsplit
    obtain ⟨rfl, hfr⟩ := Prod.mk.inj (Option.some.inj hsome)
    obtain ⟨rfl, rfl⟩ := Prod.mk.inj hfr
    exact ⟨hr', hsplit, List.cons_ne_nil _ _⟩
  · cases hsome

theorem firstMatch?_sound {table : List Rule} {s front rest : List Char} {r : Rule}
    (h : firstMatch? table s = some (r, front, rest)) :
    r ∈ table ∧ s = front ++ rest ∧ front ≠ [] ∧ Matches r.pattern front := by
  obtain ⟨hr, hsplit, hne⟩ := firstMatch?_split h
  obtain ⟨hs, hm⟩ := split?_sound hsplit
  exact ⟨hr, hs, hne, hm⟩

/-- **The next lexeme is a non-empty piece from the front of the text, and if it is a token then a
text of its kind.** -/
theorem nextLexeme_sound (c : Char) (cs : List Char) :
    c :: cs = (nextLexeme c cs).1.text ++ (nextLexeme c cs).2 ∧
      (nextLexeme c cs).1.text ≠ [] ∧
      ∀ kind, (nextLexeme c cs).1.kind? = some kind →
        IsLexeme kind (String.ofList (nextLexeme c cs).1.text) := by
  unfold nextLexeme
  cases h : firstMatch? rules (c :: cs) with
  | none =>
    refine ⟨rfl, List.cons_ne_nil _ _, ?_⟩
    intro kind hk
    obtain rfl := Option.some.inj hk
    exact ⟨c, by simp⟩
  | some m =>
    obtain ⟨r, front, rest⟩ := m
    obtain ⟨hr, hs, hne, hm⟩ := firstMatch?_sound h
    exact ⟨hs, hne, fun kind hk => isLexeme_of_rule hr hm hk⟩

end Lexical
end BlockC
