import BlockC.Proofs.Lexemes
import BlockC.Proofs.Numerals

/-! # Scanning ahead

What the scanner takes from the front of a text.  A word, a decimal number, a text in quotes or an
operator is taken whole as soon as what follows cannot go on with it (`Breaks`, `Punct.Ends`).  The
judgement `Scans` puts these steps together: the scanner gets from one text to another behind it and
finds certain tokens on the way, wherever the text stands.
-/
namespace BlockC

/-- What a token is, apart from its place. -/
abbrev Word := Kind × String

/-- A token without its place. -/
def Token.word (t : Token) : Word :=
  (t.kind, t.value)

/-- The tokens of a text without their places. -/
def words (source : String) : List Word :=
  (tokens source).map Token.word

/-- A piece of punctuation as a token. -/
def Punct.word (p : Punct) : Word :=
  (.punct p, p.text)

/-- A reserved word as a token. -/
def Keyword.word (k : Keyword) : Word :=
  (.keyword k, k.text)

/-- What follows does not make a longer piece of punctuation, nor a comment. -/
def Punct.Ends (p : Punct) (rest : List Char) : Prop :=
  ∀ c, rest.head? = some c →
    (∀ q : Punct, ¬ (p.text.toList ++ [c]) <+: q.text.toList) ∧
      (p = .slash → c ≠ '/' ∧ c ≠ '*')

/-- What follows goes on with no word, number or piece of punctuation: the text ends here, or with a
character that is part of none of them. -/
def Breaks (rest : List Char) : Prop :=
  ∀ c, rest.head? = some c →
    Lexical.isWordPart c = false ∧ c ≠ Numeral.separator ∧
      c ∉ ['=', '<', '>', '|', '&', '.', '/', '*']

theorem breaks_cons {c : Char} {rest : List Char}
    (h : Lexical.isWordPart c = false ∧ c ≠ Numeral.separator ∧
      c ∉ ['=', '<', '>', '|', '&', '.', '/', '*']) : Breaks (c :: rest) := by
  intro d hd
  obtain rfl : c = d := by simpa using hd
  exact h

theorem Punct.mem_all (p : Punct) : p ∈ Punct.all := by
  cases p <;> decide

/-- Which characters can stand behind a piece of punctuation inside a longer one. -/
theorem Punct.mem_of_continues {p q : Punct} {c : Char}
    (h : (p.text.toList ++ [c]) <+: q.text.toList) : c ∈ ['=', '<', '>', '|', '&', '.'] := by
  have hall : (Punct.all.all fun p => Punct.all.all fun q =>
      !p.text.toList.isPrefixOf q.text.toList ||
        (q.text.toList[p.text.toList.length]?).all
          (['=', '<', '>', '|', '&', '.'].contains ·)) = true := by
    decide +kernel
  have hpair := List.all_eq_true.mp (List.all_eq_true.mp hall p p.mem_all) q q.mem_all
  have hstarts : p.text.toList.isPrefixOf q.text.toList = true :=
    List.isPrefixOf_iff_prefix.mpr ((List.prefix_append _ _).trans h)
  obtain ⟨rest, hrest⟩ := h
  have hget : q.text.toList[p.text.toList.length]? = some c := by simp [← hrest]
  rw [hstarts, hget] at hpair
  simpa using hpair

/-- A break ends every piece of punctuation. -/
theorem Breaks.ends {rest : List Char} (h : Breaks rest) (p : Punct) : p.Ends rest := by
  intro c hc
  obtain ⟨-, -, hmem⟩ := h c hc
  refine ⟨fun q hq => hmem ?_, fun _ => ?_⟩
  · exact List.mem_append_left ['/', '*'] (Punct.mem_of_continues hq)
  · simp only [List.mem_cons, List.not_mem_nil, or_false, not_or] at hmem
    exact ⟨hmem.2.2.2.2.2.2.1, hmem.2.2.2.2.2.2.2⟩

/-- What follows goes on with no digits in groups: neither with a digit, nor with a mark and a digit
behind it. -/
def EndsGroups (belongs : Char → Bool) (mark : Char) (rest : List Char) : Prop :=
  ∀ d more, rest = d :: more →
    belongs d = false ∧ (d = mark → ∀ e, more.head? = some e → belongs e = false)

/-- A bracket, comma or semicolon ends by itself. -/
theorem Punct.ends_self {p : Punct}
    (h : p ∈ [.openParen, .closeParen, .openBracket, .closeBracket, .comma, .semicolon])
    (rest : List Char) : p.Ends rest := by
  intro c _
  have hall : ∀ p ∈ [Punct.openParen, .closeParen, .openBracket, .closeBracket, .comma, .semicolon],
      (∀ q ∈ Punct.all, p.text.toList <+: q.text.toList →
        q.text.toList.length ≤ p.text.toList.length) ∧ p ≠ .slash := by
    decide +kernel
  obtain ⟨hlong, hslash⟩ := hall p h
  refine ⟨fun q hq => ?_, fun hp => absurd hp hslash⟩
  have hle := hlong q q.mem_all ((List.prefix_append _ _).trans hq)
  have hlt := hq.length_le
  rw [List.length_append, List.length_singleton] at hlt
  omega

namespace Lexical

open Pattern

/-! ### The table of rules -/

theorem run_alt_of_none {a b : Pattern} {k : Cut → Option Cut} {s : Cut}
    (h : a.run k s = none) : (alt a b).run k s = b.run k s := by
  simp [Pattern.run, h]

theorem firstMatch?_skip {r : Rule} {table : List Rule} {s : List Char}
    (h : r.pattern.split? s = none) : firstMatch? (r :: table) s = firstMatch? table s := by
  simp [firstMatch?, h]

theorem firstMatch?_take {r : Rule} {table : List Rule} {s rest front : List Char} {c : Char}
    (h : r.pattern.split? s = some (c :: front, rest)) :
    firstMatch? (r :: table) s = some (r, c :: front, rest) := by
  simp [firstMatch?, h]

/-- A character of one class at the front is taken along with the run of another class behind it. -/
theorem run_runs {start part : Char → Bool} {c : Char} {cs rest taken : List Char}
    {k : Cut → Option Cut} {r : Cut} (hc : start c = true) (hcs : ∀ d ∈ cs, part d = true)
    (hrest : ∀ d, rest.head? = some d → part d = false)
    (hk : k ⟨cs.reverse ++ c :: taken, rest⟩ = some r) :
    (seq (one start) (many (one part))).run k ⟨taken, c :: (cs ++ rest)⟩ = some r := by
  have hstop : rest.takeWhile part = [] ∧ rest.dropWhile part = rest := by
    cases rest with
    | nil => exact ⟨rfl, rfl⟩
    | cons d rest => simp [hrest d rfl]
  have htake : (cs ++ rest).takeWhile part = cs := by
    rw [List.takeWhile_append_of_pos hcs, hstop.1, List.append_nil]
  have hdrop : (cs ++ rest).dropWhile part = rest := by
    rw [List.dropWhile_append_of_pos hcs, hstop.2]
  rw [Pattern.run, Pattern.run, if_pos hc]
  exact run_many_one (by rw [htake, hdrop]; exact hk)

theorem split?_runs {start part : Char → Bool} {c : Char} {cs rest : List Char}
    (hc : start c = true) (hcs : ∀ d ∈ cs, part d = true)
    (hrest : ∀ d, rest.head? = some d → part d = false) :
    (seq (one start) (many (one part))).split? (c :: (cs ++ rest)) = some (c :: cs, rest) := by
  rw [split?, run_runs hc hcs hrest rfl]
  simp

/-! ### Which rules do not apply -/

theorem word_none {c : Char} {cs : List Char} (h : isWordStart c = false) :
    word.split? (c :: cs) = none := by
  simp [word, split?, Pattern.run, h]

theorem number_none {c : Char} {cs : List Char} (h : isDigit c = false) :
    number.split? (c :: cs) = none := by
  have hzero : (c == '0') = false := by
    by_cases hc : c = '0'
    · subst hc
      exact absurd h (by decide)
    · simpa using hc
  simp [number, grouped, many1, char, split?, Pattern.run, h, hzero]

theorem blanks_none {c : Char} {cs : List Char} (h : Text.isBlank c = false) :
    blanks.split? (c :: cs) = none := by
  simp [blanks, many1, split?, Pattern.run, h]

theorem string_none {c : Char} {cs : List Char} (h : c ≠ '"') :
    string.split? (c :: cs) = none := by
  simp [string, char, split?, Pattern.run, h]

/-- No comment starts here. -/
theorem comment_none {c : Char} {cs : List Char}
    (h : c = '/' → ∀ d, cs.head? = some d → d ≠ '/' ∧ d ≠ '*') :
    lineComment.split? (c :: cs) = none ∧ blockComment.split? (c :: cs) = none := by
  by_cases hc : c = '/'
  · cases cs with
    | nil => simp [lineComment, blockComment, char, split?, Pattern.run]
    | cons d cs =>
      obtain ⟨hslash, hstar⟩ := h hc d rfl
      simp [lineComment, blockComment, char, split?, Pattern.run, hslash, hstar]
  · simp [lineComment, blockComment, char, split?, Pattern.run, hc]

/-! ### Punctuation -/

/-- A fixed text is taken exactly where it stands at the front. -/
theorem run_text {c : Char} {cs rest taken : List Char} {k : Cut → Option Cut} :
    (text c cs).run k ⟨taken, c :: (cs ++ rest)⟩ = k ⟨(c :: cs).reverse ++ taken, rest⟩ := by
  induction cs generalizing c taken with
  | nil => simp [text, char, Pattern.run]
  | cons d cs ih => simp [text, char, Pattern.run, ih]

theorem split?_punct {p : Punct} {rest : List Char} :
    (Rule.ofPunct p).pattern.split? (p.text.toList ++ rest) = some (p.text.toList, rest) := by
  cases p <;>
    · refine (Option.map_eq_some_iff.mpr ⟨_, run_text, ?_⟩)
      rfl

theorem split?_punct_none {p : Punct} {s : List Char} (h : ¬ p.text.toList <+: s) :
    (Rule.ofPunct p).pattern.split? s = none := by
  cases hs : (Rule.ofPunct p).pattern.split? s with
  | none => rfl
  | some cut =>
    obtain ⟨rfl, hm⟩ := split?_sound hs
    have htext := eq_text_of_matches hm
    refine absurd ⟨cut.2, ?_⟩ h
    rw [← htext, String.toList_ofList]

/-- Each piece of punctuation is tried after those that go on with it. -/
theorem all_order (p : Punct) :
    Punct.all = Punct.all.takeWhile (· != p) ++ p :: (Punct.all.dropWhile (· != p)).tail ∧
      ∀ q ∈ Punct.all.takeWhile (· != p), ¬ q.text.toList <+: p.text.toList := by
  cases p <;> decide

/-- The rules for punctuation find the piece at the front, if what follows ends it. -/
theorem firstMatch?_punct {p : Punct} {rest : List Char}
    (h : ∀ c, rest.head? = some c → ∀ q : Punct, ¬ (p.text.toList ++ [c]) <+: q.text.toList) :
    firstMatch? (Punct.all.map Rule.ofPunct) (p.text.toList ++ rest) =
      some (Rule.ofPunct p, p.text.toList, rest) := by
  obtain ⟨hall, hbefore⟩ := all_order p
  have hnone : ∀ q ∈ Punct.all.takeWhile (· != p),
      (Rule.ofPunct q).pattern.split? (p.text.toList ++ rest) = none := by
    intro q hq
    refine split?_punct_none fun hfront => ?_
    rcases List.prefix_or_prefix_of_prefix hfront (List.prefix_append _ rest) with hqp | ⟨u, hu⟩
    · exact hbefore q hq hqp
    · -- The other piece is longer, so it goes on with a character of `rest`.
      rw [← hu] at hfront
      cases u with
      | nil => exact hbefore q hq ⟨[], by rw [← hu]; simp⟩
      | cons c u =>
        obtain ⟨v, hv⟩ := (List.prefix_append_right_inj _).mp hfront
        refine h c (by rw [← hv]; rfl) q ⟨u, ?_⟩
        rw [← hu]
        simp
  have hskip : ∀ (before : List Punct) (table : List Rule),
      (∀ q ∈ before, (Rule.ofPunct q).pattern.split? (p.text.toList ++ rest) = none) →
      firstMatch? (before.map Rule.ofPunct ++ table) (p.text.toList ++ rest) =
        firstMatch? table (p.text.toList ++ rest) := by
    intro before table
    induction before with
    | nil => exact fun _ => rfl
    | cons q before ih =>
      intro hq
      rw [List.map_cons, List.cons_append, firstMatch?_skip (hq q (by simp))]
      exact ih fun q' hq' => hq q' (by simp [hq'])
  rw [hall, List.map_append, hskip _ _ hnone, List.map_cons]
  cases htext : p.text.toList with
  | nil => exact absurd htext (by cases p <;> decide)
  | cons c cs =>
    refine firstMatch?_take ?_
    rw [← htext]
    exact split?_punct

/-! ### The next lexeme -/

theorem nextLexeme_word {c : Char} {cs rest : List Char} (hc : isWordStart c = true)
    (hcs : ∀ d ∈ cs, isWordPart d = true)
    (hrest : ∀ d, rest.head? = some d → isWordPart d = false) :
    nextLexeme c (cs ++ rest) = (⟨some .word, c :: cs⟩, rest) := by
  have hsplit : word.split? (c :: (cs ++ rest)) = some (c :: cs, rest) :=
    split?_runs hc hcs hrest
  have hfirst : firstMatch? rules (c :: (cs ++ rest)) = some (⟨word, .word⟩, c :: cs, rest) :=
    firstMatch?_take hsplit
  rw [nextLexeme, hfirst]

theorem not_isWordStart_of_isDigit {c : Char} (h : isDigit c = true) : isWordStart c = false := by
  simp only [isDigit, isWordStart, Bool.and_eq_true, Bool.or_eq_false_iff, Bool.and_eq_false_iff,
    decide_eq_true_eq, decide_eq_false_iff_not, Char.le_def, beq_eq_false_iff_ne] at h ⊢
  have hhigh : c.val.toNat ≤ 57 := h.2
  refine ⟨⟨Or.inl ?_, Or.inl ?_⟩, ?_⟩
  · intro (hlower : (97 : Nat) ≤ c.val.toNat)
    omega
  · intro (hupper : (65 : Nat) ≤ c.val.toNat)
    omega
  · rintro rfl
    exact absurd hhigh (by decide)

/-- A mark of another base does not stand behind a digit. -/
theorem run_based_none {marks : List Char} {p : Pattern} {k : Cut → Option Cut} {c : Char}
    {cs taken : List Char} (h : ∀ d, cs.head? = some d → marks.contains d = false) :
    (seq (char '0') (seq (among marks) p)).run k ⟨taken, c :: cs⟩ = none := by
  cases cs with
  | nil => simp [char, among, Pattern.run]
  | cons d cs => simp only [char, among, Pattern.run, h d rfl, Bool.false_eq_true, if_false,
      ite_self]

/-! ### Numbers -/

theorem run_many1 {belongs : Char → Bool} {w rest taken : List Char} {k : Cut → Option Cut}
    {r : Cut} (hw : Matches (many1 (one belongs)) w)
    (hrest : ∀ d, rest.head? = some d → belongs d = false)
    (hk : k ⟨w.reverse ++ taken, rest⟩ = some r) :
    (many1 (one belongs)).run k ⟨taken, w ++ rest⟩ = some r := by
  obtain ⟨u, v, rfl, hu, hv⟩ := matches_seq hw
  obtain ⟨c, rfl, hc⟩ := matches_one hu
  refine run_runs hc (matches_many_one hv) hrest ?_
  simpa using hk

/-- Behind the first digits stands the mark of a further group, or what follows the number. -/
theorem head_groups {belongs : Char → Bool} {mark : Char} {w rest : List Char}
    (hw : Matches (many (seq (char mark) (many1 (one belongs)))) w) (hmark : belongs mark = false)
    (hrest : EndsGroups belongs mark rest) :
    ∀ d, (w ++ rest).head? = some d → belongs d = false := by
  intro d hd
  rcases matches_many hw with rfl | ⟨u, v, rfl, hu, -⟩
  · obtain ⟨more, hmore⟩ := List.head?_eq_some_iff.mp hd
    exact (hrest d more hmore).1
  · obtain ⟨m, digits, rfl, hm, -⟩ := matches_seq hu
    rw [matches_char hm] at hd
    obtain rfl : mark = d := by simpa using hd
    exact hmark

/-- Groups of digits behind the first one, as many as there are. -/
theorem repeatAlong_groups {belongs : Char → Bool} {mark : Char} {w rest : List Char}
    {k : Cut → Option Cut} {r : Cut}
    (hw : Matches (many (seq (char mark) (many1 (one belongs)))) w) (hmark : belongs mark = false)
    (hrest : EndsGroups belongs mark rest) :
    ∀ bound taken : List Char, w.length ≤ bound.length →
      k ⟨w.reverse ++ taken, rest⟩ = some r →
      repeatAlong (seq (char mark) (many1 (one belongs))).run k bound ⟨taken, w ++ rest⟩ =
        some r := by
  generalize hp : many _ = p at hw
  induction hw with
  | one | seq | altLeft | altRight => cases hp
  | manyNil =>
    intro bound taken _ hk
    cases bound with
    | nil => exact hk
    | cons _ bound =>
      have hnone : (seq (char mark) (many1 (one belongs))).run
          (repeatAlong (seq (char mark) (many1 (one belongs))).run k bound)
          ⟨taken, rest⟩ = none := by
        cases rest with
        | nil => simp [char, Pattern.run]
        | cons d rest =>
          by_cases hd : d = mark
          · cases rest with
            | nil => simp [char, many1, Pattern.run]
            | cons e rest =>
              have he := (hrest d _ rfl).2 hd e rfl
              simp [char, many1, Pattern.run, he]
          · simp [char, Pattern.run, hd]
      rw [List.nil_append, repeatAlong, hnone]
      exact hk
  | @manyCons a u v hu hv _ ih =>
    cases hp
    obtain ⟨m, digits, rfl, hm, hdigits⟩ := matches_seq hu
    rw [matches_char hm]
    intro bound taken hbound hk
    cases bound with
    | nil => simp at hbound
    | cons _ bound =>
      have htail := ih rfl bound (digits.reverse ++ mark :: taken)
        (by simp at hbound; omega) (by simpa [matches_char hm] using hk)
      have hbody : (seq (char mark) (many1 (one belongs))).run
          (repeatAlong (seq (char mark) (many1 (one belongs))).run k bound)
          ⟨taken, mark :: (digits ++ (v ++ rest))⟩ = some r := by
        simp only [Pattern.run, char, beq_self_eq_true, if_true]
        exact run_many1 hdigits (head_groups hv hmark hrest) htail
      simp only [List.cons_append, List.nil_append, List.append_assoc, repeatAlong, hbody]

/-- Digits in groups are taken whole. -/
theorem run_grouped {belongs : Char → Bool} {mark : Char} {w rest taken : List Char}
    {k : Cut → Option Cut} {r : Cut} (hw : Matches (Pattern.grouped (one belongs) mark) w)
    (hmark : belongs mark = false) (hrest : EndsGroups belongs mark rest)
    (hk : k ⟨w.reverse ++ taken, rest⟩ = some r) :
    (Pattern.grouped (one belongs) mark).run k ⟨taken, w ++ rest⟩ = some r := by
  obtain ⟨u, v, rfl, hu, hv⟩ := matches_seq hw
  rw [List.append_assoc]
  refine run_many1 hu (head_groups hv hmark hrest) ?_
  exact repeatAlong_groups hv hmark hrest _ _ (by simp) (by simpa using hk)

/-- What digits in groups consist of. -/
theorem matches_grouped {belongs : Char → Bool} {mark : Char} {w : List Char}
    (h : Matches (Pattern.grouped (one belongs) mark) w) :
    ∃ c cs, w = c :: cs ∧ belongs c = true ∧ ∀ d ∈ cs, belongs d = true ∨ d = mark := by
  obtain ⟨first, more, rfl, hgroups⟩ := matches_grouped_iff.mp h
  obtain ⟨hne, hfirst⟩ := hgroups first (by simp)
  obtain ⟨c, cs, rfl⟩ := List.exists_cons_of_ne_nil hne
  refine ⟨c, cs ++ more.flatMap (mark :: ·), rfl, hfirst c (by simp), fun d hd => ?_⟩
  rcases List.mem_append.mp hd with hd | hd
  · exact Or.inl (hfirst d (by simp [hd]))
  · obtain ⟨g, hg, hd⟩ := List.mem_flatMap.mp hd
    rcases List.mem_cons.mp hd with rfl | hd
    · exact Or.inr rfl
    · exact Or.inl ((hgroups g (by simp [hg])).2 d hd)

/-- Decimal digits are a number. -/
theorem matches_digits {w : List Char} (hne : w ≠ []) (h : ∀ c ∈ w, isDigit c = true) :
    Matches number w := by
  cases w with
  | nil => exact absurd rfl hne
  | cons c cs =>
    have hgroup : Matches (many1 (one isDigit)) ([c] ++ cs) :=
      .seq (.one (h c (by simp))) (matches_of_all fun d hd => h d (by simp [hd]))
    have hall : Matches (Pattern.grouped (one isDigit) Numeral.separator) ([c] ++ cs ++ []) :=
      .seq hgroup .manyNil
    rw [List.append_nil] at hall
    exact .altRight (.altRight hall)

theorem matches_decimal (value : Nat) :
    Matches number (Numeral.decimal value).toList := by
  refine matches_digits (Numeral.decimal_ne_nil _) fun c hc => ?_
  have := Numeral.isDigit_of_mem_decimal hc
  simpa [isDigit] using this

/-- A number starts with a digit. -/
theorem number_start {w : List Char} (h : Matches number w) :
    ∃ c cs, w = c :: cs ∧ isDigit c = true := by
  rcases matches_alt h with h | h
  · obtain ⟨u, v, rfl, hu, -⟩ := matches_seq h
    exact ⟨'0', v, by rw [matches_char hu]; rfl, by decide⟩
  rcases matches_alt h with h | h
  · obtain ⟨u, v, rfl, hu, -⟩ := matches_seq h
    exact ⟨'0', v, by rw [matches_char hu]; rfl, by decide⟩
  · obtain ⟨c, cs, rfl, hc, -⟩ := matches_grouped h
    exact ⟨c, cs, rfl, hc⟩

theorem isWordPart_of_isHexDigit {c : Char} (h : isHexDigit c = true) : isWordPart c = true := by
  simp only [isHexDigit, isWordPart, isWordStart, Bool.or_eq_true, Bool.and_eq_true,
    decide_eq_true_eq, beq_iff_eq] at h ⊢
  rcases h with (h | ⟨hlow, hhigh⟩) | ⟨hlow, hhigh⟩
  · exact Or.inr h
  · exact Or.inl (Or.inl (Or.inl ⟨hlow, Char.le_trans hhigh (by decide)⟩))
  · exact Or.inl (Or.inl (Or.inr ⟨hlow, Char.le_trans hhigh (by decide)⟩))

theorem isWordPart_of_isBinaryDigit {c : Char} (h : isBinaryDigit c = true) :
    isWordPart c = true := by
  rcases Bool.or_eq_true_iff.mp h with h | h <;> rw [beq_iff_eq.mp h] <;> decide

/-- A number in another base. -/
theorem matches_based {marks : List Char} {p : Pattern} {w : List Char}
    (h : Matches (seq (char '0') (seq (among marks) p)) w) :
    ∃ m digits, w = '0' :: m :: digits ∧ m ∈ marks ∧ Matches p digits := by
  obtain ⟨zero, behind, rfl, hzero, hbehind⟩ := matches_seq h
  obtain ⟨mark, digits, rfl, hmark, hdigits⟩ := matches_seq hbehind
  obtain ⟨m, rfl, hm⟩ := matches_one hmark
  exact ⟨m, digits, by rw [matches_char hzero]; rfl, List.contains_iff_mem.mp hm, hdigits⟩

theorem based_of_matches {marks : List Char} {p : Pattern} {m : Char} {digits : List Char}
    (hm : m ∈ marks) (h : Matches p digits) :
    Matches (seq (char '0') (seq (among marks) p)) ('0' :: m :: digits) := by
  have hzero : Matches (char '0') ['0'] := .one (by decide)
  have hmark : Matches (among marks) [m] := .one (List.contains_iff_mem.mpr hm)
  exact .seq hzero (.seq hmark h)

/-- The characters of a number. -/
theorem number_parts {w : List Char} (h : Matches number w) :
    ∀ c ∈ w, isWordPart c = true ∨ c = Numeral.separator := by
  have hdigits {belongs : Char → Bool} (hpart : ∀ c, belongs c = true → isWordPart c = true)
      {v : List Char} (hv : Matches (Pattern.grouped (one belongs) Numeral.separator) v) :
      ∀ c ∈ v, isWordPart c = true ∨ c = Numeral.separator := by
    obtain ⟨c, cs, rfl, hc, hcs⟩ := matches_grouped hv
    exact List.forall_mem_cons.mpr
      ⟨Or.inl (hpart c hc), fun d hd => (hcs d hd).imp_left (hpart d)⟩
  have hbased {marks : List Char} {belongs : Char → Bool} (hmarks : marks.all isWordPart = true)
      (hpart : ∀ c, belongs c = true → isWordPart c = true)
      (hw : Matches (seq (char '0') (seq (among marks)
        (Pattern.grouped (one belongs) Numeral.separator))) w) :
      ∀ c ∈ w, isWordPart c = true ∨ c = Numeral.separator := by
    obtain ⟨m, digits, rfl, hm, hv⟩ := matches_based hw
    exact List.forall_mem_cons.mpr ⟨Or.inl (by decide), List.forall_mem_cons.mpr
      ⟨Or.inl (List.all_eq_true.mp hmarks m hm), hdigits hpart hv⟩⟩
  rcases matches_alt h with h | h
  · exact hbased (by decide) (fun _ => isWordPart_of_isHexDigit) h
  rcases matches_alt h with h | h
  · exact hbased (by decide) (fun _ => isWordPart_of_isBinaryDigit) h
  · exact hdigits (fun c hc => by simp [isWordPart, hc]) h

/-- Behind the longest number, its digits do not go on. -/
theorem endsGroups_of_longest (head : List Char) {digits rest : List Char}
    {belongs : Char → Bool} (h : IsLongest number (head ++ digits ++ rest) (head ++ digits))
    (hdigits : Matches (Pattern.grouped (one belongs) Numeral.separator) digits)
    (hnumber : ∀ ds, Matches (Pattern.grouped (one belongs) Numeral.separator) ds →
      Matches number (head ++ ds)) : EndsGroups belongs Numeral.separator rest := by
  have hlonger : ∀ more back, rest = more ++ back →
      Matches (Pattern.grouped (one belongs) Numeral.separator) (digits ++ more) → more = [] := by
    intro more back hrest hm
    have hle := h.longest (head ++ (digits ++ more)) ⟨back, by simp [hrest]⟩ (hnumber _ hm)
    simp only [List.length_append] at hle
    exact List.length_eq_zero_iff.mp (by omega)
  rintro d more rfl
  constructor
  · cases hd : belongs d with
    | false => rfl
    | true => cases hlonger [d] more rfl (matches_grouped_concat hdigits hd)
  · rintro rfl e he
    obtain ⟨back, rfl⟩ := List.head?_eq_some_iff.mp he
    cases hd : belongs e with
    | false => rfl
    | true => cases hlonger [_, e] back rfl (matches_grouped_next hdigits hd)

/-- The digits behind the mark of a base are taken whole. -/
theorem run_based {marks : List Char} {belongs : Char → Bool} {m : Char} {digits rest : List Char}
    (hm : m ∈ marks) (hsep : belongs Numeral.separator = false)
    (hdigits : Matches (Pattern.grouped (one belongs) Numeral.separator) digits)
    (hrest : EndsGroups belongs Numeral.separator rest) :
    (seq (char '0') (seq (among marks) (Pattern.grouped (one belongs) Numeral.separator))).run
      some ⟨[], '0' :: m :: (digits ++ rest)⟩ = some ⟨('0' :: m :: digits).reverse, rest⟩ := by
  simp only [Pattern.run, char, among, beq_self_eq_true, if_true, List.contains_iff_mem.mpr hm]
  exact run_grouped hdigits hsep hrest (by simp)

/-- No longer number in another base stands where decimal digits do. -/
theorem run_based_none_of_longest (marks : List Char) {w rest : List Char} {p : Pattern}
    (h : IsLongest number (w ++ rest) w)
    (hw : Matches (Pattern.grouped (one isDigit) Numeral.separator) w)
    (hmarks : (marks.all fun m => !isDigit m && m != Numeral.separator) = true)
    (hnumber : ∀ v, Matches (seq (char '0') (seq (among marks) p)) v → Matches number v) :
    (seq (char '0') (seq (among marks) p)).run some ⟨[], w ++ rest⟩ = none := by
  cases hr : (seq (char '0') (seq (among marks) p)).run some ⟨[], w ++ rest⟩ with
  | none => rfl
  | some r =>
    obtain ⟨v, back, hv, hm, -⟩ := run_sound _ some _ r hr
    have hfront : v <+: w ++ rest := ⟨back, hv.symm⟩
    have hprefix : v <+: w :=
      List.prefix_of_prefix_length_le hfront h.stands (h.longest v hfront (hnumber v hm))
    obtain ⟨m, digits, rfl, hmem, -⟩ := matches_based hm
    obtain ⟨c, cs, rfl, -, hcs⟩ := matches_grouped hw
    obtain ⟨hdigit, hsep⟩ : isDigit m = false ∧ m ≠ Numeral.separator := by
      simpa using List.all_eq_true.mp hmarks m hmem
    -- The mark of the base would be one of the decimal digits.
    have hcs' : m ∈ cs := (List.cons_prefix_cons.mp hprefix).2.subset (by simp)
    rcases hcs m hcs' with hd | rfl
    · rw [hdigit] at hd
      cases hd
    · exact absurd rfl hsep

/-- **The longest number at the front is taken.** -/
theorem split?_longest_number {w rest : List Char} (h : IsLongest number (w ++ rest) w) :
    number.split? (w ++ rest) = some (w, rest) := by
  have hrun : number.run some ⟨[], w ++ rest⟩ = some ⟨w.reverse, rest⟩ := by
    rcases matches_alt h.fits with hw | hw
    · obtain ⟨m, digits, rfl, hm, hdigits⟩ := matches_based hw
      have hends := endsGroups_of_longest ['0', m] h hdigits
        fun ds hds => .altLeft (based_of_matches hm hds)
      simp only [number, List.cons_append]
      rw [Pattern.run, run_based hm (by decide) hdigits hends]
    rcases matches_alt hw with hw | hw
    · obtain ⟨m, digits, rfl, hm, hdigits⟩ := matches_based hw
      have hends := endsGroups_of_longest ['0', m] h hdigits
        fun ds hds => .altRight (.altLeft (based_of_matches hm hds))
      have hhex : ∀ d, (m :: (digits ++ rest)).head? = some d → ['x', 'X'].contains d = false := by
        intro d hd
        obtain rfl : m = d := by simpa using hd
        rcases List.mem_cons.mp hm with rfl | hm
        · decide
        · obtain rfl := List.mem_singleton.mp hm
          decide
      simp only [number, List.cons_append]
      rw [run_alt_of_none (run_based_none hhex), Pattern.run,
        run_based hm (by decide) hdigits hends]
    · have hends := endsGroups_of_longest [] h hw
        fun ds hds => .altRight (.altRight hds)
      have hhex := run_based_none_of_longest ['x', 'X'] h hw (by decide) fun v hv => .altLeft hv
      have hbinary := run_based_none_of_longest ['b', 'B'] h hw (by decide)
        fun v hv => .altRight (.altLeft hv)
      rw [number, run_alt_of_none hhex, run_alt_of_none hbinary]
      exact run_grouped hw (by decide) hends (by simp)
  rw [Pattern.split?, hrun]
  simp

theorem split?_number {w rest : List Char} (h : Matches number w) (hrest : Breaks rest) :
    number.split? (w ++ rest) = some (w, rest) := by
  refine split?_longest_number
    ⟨List.prefix_append w rest, h, fun v hv hm => Nat.le_of_not_lt fun hlt => ?_⟩
  -- A longer number would hold the first character of the break.
  obtain ⟨more, rfl⟩ := List.prefix_of_prefix_length_le (List.prefix_append w rest) hv
    (Nat.le_of_lt hlt)
  obtain ⟨back, hback⟩ := hv
  cases more with
  | nil => simp at hlt
  | cons d more =>
    rw [List.append_assoc, List.append_cancel_left_eq] at hback
    obtain ⟨hpart, hsep, -⟩ := hrest d (by rw [← hback]; rfl)
    rcases number_parts hm d (by simp) with hd | hd
    · rw [hpart] at hd
      cases hd
    · exact hsep hd

theorem nextLexeme_number {c : Char} {cs rest : List Char} (h : Matches number (c :: cs))
    (hrest : Breaks rest) :
    nextLexeme c (cs ++ rest) = (⟨some (.token .number), c :: cs⟩, rest) := by
  obtain ⟨d, ds, hw, hd⟩ := number_start h
  obtain ⟨rfl, -⟩ := List.cons.inj hw
  have hfirst : firstMatch? rules (c :: (cs ++ rest)) =
      some (⟨number, .token .number⟩, c :: cs, rest) := by
    rw [rules, List.cons_append, firstMatch?_skip (word_none (not_isWordStart_of_isDigit hd))]
    exact firstMatch?_take (split?_number h hrest)
  rw [nextLexeme, hfirst]

/-! ### Blanks and strings -/

/-- A run of blanks before something that is not blank. -/
theorem nextLexeme_blanks {c : Char} {cs rest : List Char} (hc : Text.isBlank c = true)
    (hcs : ∀ d ∈ cs, Text.isBlank d = true)
    (hrest : ∀ d, rest.head? = some d → Text.isBlank d = false) :
    nextLexeme c (cs ++ rest) = (⟨some .skip, c :: cs⟩, rest) := by
  have hpart : isWordPart c = false := by
    cases h : isWordPart c with
    | false => rfl
    | true => exact absurd hc (by simp [not_isBlank_of_isWordPart h])
  obtain ⟨hstart, hdigit⟩ := Bool.or_eq_false_iff.mp hpart
  have hfirst : firstMatch? rules (c :: (cs ++ rest)) = some (⟨blanks, .skip⟩, c :: cs, rest) := by
    rw [rules, List.cons_append, firstMatch?_skip (word_none hstart), List.cons_append,
      firstMatch?_skip (number_none hdigit)]
    exact firstMatch?_take (split?_runs hc hcs hrest)
  rw [nextLexeme, hfirst]

/-- The inside of a quoted text ends with the quote behind it. -/
theorem repeatAlong_quotable {body : List Char} (h : Quotable body) (rest : List Char) :
    ∀ (bound taken : List Char), body.length ≤ bound.length →
      repeatAlong (alt (Pattern.except ['"', '\\', '\n'])
          (seq (char '\\') (Pattern.except ['\n']))).run ((char '"').run some) bound
        ⟨taken, body ++ '"' :: rest⟩ = some ⟨'"' :: (body.reverse ++ taken), rest⟩ := by
  induction h with
  | nil =>
    intro bound taken _
    cases bound with
    | nil => simp [repeatAlong, char, Pattern.run]
    | cons _ bound => simp [repeatAlong, Pattern.except, char, Pattern.run]
  | @plain c cs hquote hslash hfeed _ ih =>
    intro bound taken hbound
    cases bound with
    | nil => simp at hbound
    | cons _ bound =>
      have hrec := ih bound (c :: taken) (by simpa using hbound)
      simp [repeatAlong, Pattern.except, char, Pattern.run, hquote, hslash, hfeed] at hrec ⊢
      rw [hrec]
  | @escape c cs hfeed _ ih =>
    intro bound taken hbound
    cases bound with
    | nil => simp at hbound
    | cons _ bound =>
      have hrec := ih bound (c :: '\\' :: taken) (by simp at hbound; omega)
      simp [repeatAlong, Pattern.except, char, Pattern.run, hfeed] at hrec ⊢
      rw [hrec]

theorem split?_quoted {body : List Char} (h : Quotable body) (rest : List Char) :
    string.split? ('"' :: (body ++ '"' :: rest)) = some ('"' :: (body ++ ['"']), rest) := by
  have hbody := repeatAlong_quotable h rest (body ++ '"' :: rest) ['"'] (by simp)
  have hrun : string.run some ⟨[], '"' :: (body ++ '"' :: rest)⟩ =
      some ⟨'"' :: (body.reverse ++ ['"']), rest⟩ := by
    simp only [string, char, Pattern.run, beq_self_eq_true, if_true] at hbody ⊢
    exact hbody
  rw [split?, hrun]
  simp

theorem nextLexeme_quoted {body rest : List Char} (h : Quotable body) :
    nextLexeme '"' (body ++ '"' :: rest) =
      (⟨some (.token .string), '"' :: (body ++ ['"'])⟩, rest) := by
  have hfirst : firstMatch? rules ('"' :: (body ++ '"' :: rest)) =
      some (⟨string, .token .string⟩, '"' :: (body ++ ['"']), rest) := by
    rw [rules, List.cons_append, firstMatch?_skip (word_none (by decide)), List.cons_append,
      firstMatch?_skip (number_none (by decide)), List.cons_append,
      firstMatch?_skip (blanks_none (by decide))]
    exact firstMatch?_take (split?_quoted h rest)
  rw [nextLexeme, hfirst]

/-- Whether a character starts no token of another kind. -/
def startsPunct (c : Char) : Bool :=
  !isWordStart c && !isDigit c && !Text.isBlank c && c != '"'

/-- What a piece of punctuation starts with starts no token of another kind, and no comment. -/
theorem punct_start {p : Punct} {c : Char} {cs : List Char} (hp : p.text.toList = c :: cs) :
    isWordStart c = false ∧ isDigit c = false ∧ Text.isBlank c = false ∧ c ≠ '"' ∧
      (c = '/' → p.text.toList = ['/'] ∧ p = .slash ∨ cs.head? = some '=') := by
  have hall : (Punct.all.all fun p => p.text.toList.head?.all startsPunct) = true := by
    decide +kernel
  have hslash : ∀ p ∈ Punct.all, p.text.toList.head? = some '/' →
      p.text.toList = ['/'] ∧ p = .slash ∨ p.text.toList.tail.head? = some '=' := by
    decide +kernel
  have hstart := List.all_eq_true.mp hall p p.mem_all
  have hmark := hslash p p.mem_all
  rw [hp] at hstart hmark ⊢
  simp only [List.head?_cons, Option.all_some, startsPunct, Bool.and_eq_true,
    Bool.not_eq_true', bne_iff_ne] at hstart
  exact ⟨hstart.1.1.1, hstart.1.1.2, hstart.1.2, hstart.2, fun hc => hmark (by rw [hc]; rfl)⟩

/-- A piece of punctuation that nothing goes on with, where no comment starts. -/
theorem nextLexeme_mark {p : Punct} {c : Char} {cs rest : List Char}
    (hp : p.text.toList = c :: cs)
    (h : ∀ d, rest.head? = some d → ∀ q : Punct, ¬ (p.text.toList ++ [d]) <+: q.text.toList)
    (hcomment : lineComment.split? (c :: (cs ++ rest)) = none ∧
      blockComment.split? (c :: (cs ++ rest)) = none) :
    nextLexeme c (cs ++ rest) = (⟨some (.token (.punct p)), c :: cs⟩, rest) := by
  obtain ⟨hstart, hdigit, hblank, hquote, -⟩ := punct_start hp
  have hfirst : firstMatch? rules (c :: (cs ++ rest)) = some (Rule.ofPunct p, c :: cs, rest) := by
    rw [rules, List.cons_append, firstMatch?_skip (word_none hstart), List.cons_append,
      firstMatch?_skip (number_none hdigit), List.cons_append,
      firstMatch?_skip (blanks_none hblank), List.cons_append,
      firstMatch?_skip (string_none hquote), List.cons_append,
      firstMatch?_skip hcomment.1, List.cons_append, firstMatch?_skip hcomment.2,
      List.nil_append, ← List.cons_append, ← hp]
    exact firstMatch?_punct h
  rw [nextLexeme, hfirst]
  rfl

theorem nextLexeme_punct {p : Punct} {c : Char} {cs rest : List Char}
    (hp : p.text.toList = c :: cs) (h : p.Ends rest) :
    nextLexeme c (cs ++ rest) = (⟨some (.token (.punct p)), c :: cs⟩, rest) := by
  refine nextLexeme_mark hp (fun d hd => (h d hd).1) (comment_none fun hc d hd => ?_)
  rcases (punct_start hp).2.2.2.2 hc with ⟨htext, rfl⟩ | heq
  · obtain ⟨-, rfl⟩ := List.cons.inj (hp.symm.trans htext)
    exact (h d hd).2 rfl
  · cases cs with
    | nil => cases heq
    | cons e es =>
      obtain rfl : e = '=' := by simpa using heq
      obtain rfl : '=' = d := by simpa using hd
      decide

/-! ### Runs of the scanner -/

/-- The scanner gets from one text to the other behind it, and these are the tokens between them. -/
inductive Scans : List Char → List Word → List Char → Prop
  | done {rest : List Char} : Scans rest [] rest
  | token {c : Char} {cs behind rest : List Char} {l : Lexeme} {kind : Kind} {ws : List Word}
      (next : nextLexeme c cs = (l, behind)) (kept : l.kind? = some kind)
      (run : Scans behind ws rest) : Scans (c :: cs) ((kind, String.ofList l.text) :: ws) rest
  | skip {c : Char} {cs behind rest : List Char} {l : Lexeme} {ws : List Word}
      (next : nextLexeme c cs = (l, behind)) (dropped : l.kind? = none)
      (run : Scans behind ws rest) : Scans (c :: cs) ws rest

theorem Scans.trans {a b c : List Char} {ws vs : List Word} (h : Scans a ws b)
    (h' : Scans b vs c) : Scans a (ws ++ vs) c := by
  induction h with
  | done => exact h'
  | token next kept _ ih => exact .token next kept (ih h')
  | skip next dropped _ ih => exact .skip next dropped (ih h')

theorem scans_word {w : String} {rest : List Char} {kind : Kind} (h : IsWord w.toList)
    (hk : Lexeme.kind? ⟨some .word, w.toList⟩ = some kind)
    (hrest : ∀ d, rest.head? = some d → isWordPart d = false) :
    Scans (w.toList ++ rest) [(kind, w)] rest := by
  obtain ⟨c, cs, hw, hc, hcs⟩ := h
  have hnext := nextLexeme_word hc hcs hrest
  rw [hw] at hk ⊢
  have hscan := Scans.token hnext hk .done
  rw [← hw, String.ofList_toList] at hscan
  exact hscan

/-- A name before anything that is no part of a word, such as a dot. -/
theorem scans_name_before {s : String} {rest : List Char} (h : IsName s)
    (hrest : ∀ d, rest.head? = some d → isWordPart d = false) :
    Scans (s.toList ++ rest) [(.identifier, s)] rest := by
  refine scans_word h.1 ?_ hrest
  simp [Lexeme.kind?, h.2]

theorem scans_name {s : String} {rest : List Char} (h : IsName s) (hrest : Breaks rest) :
    Scans (s.toList ++ rest) [(.identifier, s)] rest :=
  scans_name_before h fun d hd => (hrest d hd).1

theorem scans_keyword {k : Keyword} {rest : List Char} (hrest : Breaks rest) :
    Scans (k.text.toList ++ rest) [k.word] rest := by
  refine scans_word ?_ ?_ fun d hd => (hrest d hd).1
  · cases k <;> exact isWord_of_all rfl rfl
  · cases k <;> rfl

theorem scans_number {s : String} {rest : List Char} (h : Matches number s.toList)
    (hrest : Breaks rest) : Scans (s.toList ++ rest) [(.number, s)] rest := by
  obtain ⟨c, cs, hs, -⟩ := number_start h
  rw [hs] at h
  have hscan := Scans.token (nextLexeme_number h hrest) rfl .done
  rw [← hs, String.ofList_toList] at hscan
  rw [hs]
  exact hscan

theorem scans_quoted {s : String} {rest : List Char} (h : IsQuoted s) :
    Scans (s.toList ++ rest) [(.string, s)] rest := by
  obtain ⟨body, hs, hbody⟩ := h
  have hnext : nextLexeme '"' (body ++ '"' :: rest) = _ := nextLexeme_quoted hbody
  have hscan := Scans.token hnext rfl .done
  rw [← hs, String.ofList_toList] at hscan
  rw [hs, List.cons_append, List.append_assoc, List.singleton_append]
  exact hscan

theorem scans_punct {p : Punct} {rest : List Char} (h : p.Ends rest) :
    Scans (p.text.toList ++ rest) [(.punct p, p.text)] rest := by
  cases hp : p.text.toList with
  | nil => exact absurd hp (by cases p <;> decide)
  | cons c cs =>
    have hscan := Scans.token (nextLexeme_punct hp h) rfl .done
    rw [← hp, String.ofList_toList] at hscan
    exact hscan

/-- A blank before something that is not blank. -/
theorem scans_blank {c : Char} {rest : List Char} (hc : Text.isBlank c = true)
    (hrest : ∀ d, rest.head? = some d → Text.isBlank d = false) :
    Scans (c :: rest) [] rest := by
  have hnext : nextLexeme c ([] ++ rest) = (⟨some .skip, [c]⟩, rest) :=
    nextLexeme_blanks hc (by simp) hrest
  exact .skip hnext rfl .done

theorem scans_space {rest : List Char}
    (hrest : ∀ d, rest.head? = some d → Text.isBlank d = false) :
    Scans (' ' :: rest) [] rest :=
  scans_blank (by decide) hrest

theorem length_behind {c : Char} {cs behind : List Char} {l : Lexeme}
    (h : nextLexeme c cs = (l, behind)) : behind.length ≤ cs.length := by
  obtain ⟨hsplit, hne, -⟩ := nextLexeme_sound c cs
  rw [h] at hsplit hne
  have hlen := congrArg List.length hsplit
  have hpos : 0 < l.text.length := List.length_pos_iff.mpr hne
  simp only [List.length_cons, List.length_append] at hlen
  omega

/-- A run of the scanner is found by scanning, at every place and under every sufficient bound. -/
theorem lexemes_of_scans {s rest : List Char} {ws : List Word} (h : Scans s ws rest)
    (hrest : rest = []) : ∀ (bound : List Char) (pos : Position), s.length ≤ bound.length →
      ((lexemes bound ⟨s, pos⟩).filterMap toToken?).map Token.word = ws := by
  induction h with
  | done =>
    intro bound pos _
    subst hrest
    cases bound <;> rfl
  | @token c cs behind rest l kind ws next kept _ ih =>
    intro bound pos hbound
    cases bound with
    | nil => simp at hbound
    | cons _ bound =>
      have hle := length_behind next
      have hrec := ih hrest bound (pos.after l.text)
        (Nat.le_trans hle (Nat.le_of_succ_le_succ hbound))
      simp [lexemes, next, toToken?, kept, Token.word, hrec]
  | @skip c cs behind rest l ws next dropped _ ih =>
    intro bound pos hbound
    cases bound with
    | nil => simp at hbound
    | cons _ bound =>
      have hle := length_behind next
      have hrec := ih hrest bound (pos.after l.text)
        (Nat.le_trans hle (Nat.le_of_succ_le_succ hbound))
      simp [lexemes, next, toToken?, dropped, hrec]

/-- **The tokens of a text are those of a run of the scanner to its end.** -/
theorem words_of_scans {source : String} {ws : List Word} (h : Scans source.toList ws []) :
    (tokens source).map Token.word = ws :=
  lexemes_of_scans h rfl _ _ (Nat.le_refl _)

end Lexical
end BlockC
