import BlockC.Diagnostic.Report
import BlockC.Proofs.DiagnosticPlaces

/-! # Where the caret stands

A report ends with the line of source around a place and a line with a caret.  Both lines leave out
the blanks at the start of the source line, and both start with as many characters for the line
number.  What is left is the place itself: the caret is as many characters away from the start as
there are bytes before the place on its line.  So it stands under the place just if none of the
characters before the place takes more than one byte (`caret_under_place_iff`).

This needs that the place is not among the blanks that are left out.  It is an end of a token
(`token_of_compile_error`), and tokens neither begin nor end with a blank (`not_isBlank_of_last`).
-/
namespace BlockC
namespace Text

theorem length_le_size (cs : List Char) : cs.length ≤ size cs := by
  induction cs with
  | nil => simp
  | cons c cs ih =>
    have hc := c.utf8Size_pos
    rw [size_cons, List.length_cons]
    omega

/-- There are as many bytes as characters just if each character takes one byte. -/
theorem size_eq_length_iff (cs : List Char) :
    size cs = cs.length ↔ ∀ c ∈ cs, c.utf8Size = 1 := by
  induction cs with
  | nil => simp [size]
  | cons c cs ih =>
    have hc := c.utf8Size_pos
    have hle := length_le_size cs
    rw [size_cons, List.length_cons, List.forall_mem_cons, ← ih]
    omega

/-- Blanks at the end of a text are left out behind a character that stays. -/
theorem trimEnd_append {front back : List Char}
    (h : trimEnd back ≠ [] ∨ ∀ c ∈ front.getLast?, isBlank c = false) :
    trimEnd (front ++ back) = front ++ trimEnd back := by
  have hsplit : trimEnd (front ++ back) =
      if (back.reverse.dropWhile isBlank).isEmpty then trimEnd front
      else front ++ trimEnd back := by
    rw [trimEnd, List.reverse_append, List.dropWhile_append]
    split <;> simp [trimEnd]
  rw [hsplit]
  split
  · rename_i hempty
    have hback : trimEnd back = [] := by simpa [trimEnd] using hempty
    have hlast := h.resolve_left (absurd hback)
    rw [hback, List.append_nil]
    -- The last character of the front stays, so nothing of it is left out.
    cases hrev : front.reverse with
    | nil => simp [trimEnd, List.reverse_eq_nil_iff.mp hrev]
    | cons c cs =>
      have hc : isBlank c = false := hlast c (by
        rw [← List.head?_reverse, hrev]
        rfl)
      rw [trimEnd, hrev, List.dropWhile_cons_of_neg (by simp [hc]), ← hrev, List.reverse_reverse]
  · rfl

theorem trimEnd_ne_nil {c : Char} {cs : List Char} (h : isBlank c = false) :
    trimEnd (c :: cs) ≠ [] := by
  have hlast : ∀ d ∈ [c].getLast?, isBlank d = false := by simpa using h
  have happend : trimEnd ([c] ++ cs) = [c] ++ trimEnd cs := trimEnd_append (Or.inr hlast)
  rw [List.singleton_append] at happend
  rw [happend]
  exact List.cons_ne_nil _ _

theorem feed_not_mem_lastLine (cs : List Char) : '\n' ∉ lastLine cs := by
  intro h
  simpa using List.mem_rtakeWhile_imp h

theorem mem_of_mem_trimEnd {c : Char} {cs : List Char} (h : c ∈ trimEnd cs) : c ∈ cs := by
  have hmem : c ∈ cs.reverse.dropWhile isBlank := List.mem_reverse.mp h
  exact List.mem_reverse.mp ((List.dropWhile_suffix _).subset hmem)

/-- The line feed at the end of a line is left out with the blanks there. -/
theorem feed_not_mem_trimEnd_restOfLine (cs : List Char) : '\n' ∉ trimEnd (restOfLine cs) := by
  have hline : '\n' ∉ cs.takeWhile (· != '\n') := by
    intro h
    simpa using List.mem_takeWhile_imp h
  unfold restOfLine
  cases hrest : cs.dropWhile (· != '\n') with
  | nil => simpa using fun h => hline (mem_of_mem_trimEnd h)
  | cons c rest =>
    have hc : c = '\n' := by
      have hhead := List.head?_dropWhile_not (· != '\n') cs
      simpa [hrest] using hhead
    have htrim : trimEnd (cs.takeWhile (· != '\n') ++ ['\n']) =
        trimEnd (cs.takeWhile (· != '\n')) := by
      simp [trimEnd, show isBlank '\n' = true by decide]
    rw [hc, List.take_succ_cons, List.take_zero, htrim]
    exact fun h => hline (mem_of_mem_trimEnd h)

end Text

/-! ### Tokens neither begin nor end with a blank -/

namespace Lexical

open Pattern

theorem number_avoids_blanks {c : Char} (h : Text.isBlank c = true) : number.avoids c = true := by
  have hne : ∀ d, Text.isBlank d = false → c ≠ d := by
    rintro d hd rfl
    rw [h] at hd
    cases hd
  have hhex : isHexDigit c = false := by
    cases hc : isHexDigit c with
    | false => rfl
    | true =>
      rw [not_isBlank_of_isWordPart (isWordPart_of_isHexDigit hc)] at h
      cases h
  have hdigit : isDigit c = false := by
    simp only [isHexDigit, Bool.or_eq_false_iff] at hhex
    exact hhex.1.1
  simp [number, Pattern.grouped, Pattern.many1, char, among, avoids, hhex, hdigit, isBinaryDigit,
    hne '0' (by decide), hne '1' (by decide), hne 'x' (by decide), hne 'X' (by decide),
    hne 'b' (by decide), hne 'B' (by decide), hne Numeral.separator (by decide)]

/-- No token ends with a blank. -/
theorem not_isBlank_of_last {c d : Char} {cs : List Char} {kind : Kind}
    (h : (nextLexeme c cs).1.kind? = some kind) (hd : (nextLexeme c cs).1.text.getLast? = some d) :
    Text.isBlank d = false := by
  have hfirst := not_isBlank_of_kept h
  obtain ⟨hsplit, -, hlexeme⟩ := nextLexeme_sound c cs
  have hlexeme := hlexeme kind h
  generalize (nextLexeme c cs).1.text = text at hd hsplit hlexeme
  cases kind with
  | eof => exact hlexeme.elim
  | unknown =>
    obtain ⟨e, he⟩ := hlexeme
    rw [String.toList_ofList] at he
    rw [he] at hd hsplit
    obtain rfl : e = d := by simpa using hd
    obtain rfl : c = e := (List.cons.inj hsplit).1
    exact hfirst
  | number =>
    have hmatches : Matches number text := by simpa [IsLexeme] using hlexeme
    cases hblank : Text.isBlank d with
    | false => rfl
    | true =>
      have hnot := not_mem_of_avoids (number_avoids_blanks hblank) hmatches
      exact absurd (List.mem_of_getLast? hd) hnot
  | string =>
    obtain ⟨body, hbody, -⟩ := hlexeme
    rw [String.toList_ofList] at hbody
    rw [hbody, ← List.cons_append, List.getLast?_concat] at hd
    obtain rfl := Option.some.inj hd
    decide
  | identifier =>
    obtain ⟨⟨e, es, hword, he, hes⟩, -⟩ := hlexeme
    rw [String.toList_ofList] at hword
    refine not_isBlank_of_isWordPart ?_
    have hmem := List.mem_of_getLast? hd
    rw [hword, List.mem_cons] at hmem
    rcases hmem with rfl | hmem
    · simp [isWordPart, he]
    · exact hes d hmem
  | punct p =>
    obtain rfl : text = p.text.toList := by
      rw [← String.toList_ofList (l := text)]
      exact congrArg String.toList hlexeme
    revert hd
    cases p <;> simp [Punct.text] <;> rintro rfl <;> decide
  | keyword k =>
    obtain rfl : text = k.text.toList := by
      rw [← String.toList_ofList (l := text)]
      exact congrArg String.toList hlexeme
    revert hd
    cases k <;> simp [Keyword.text] <;> rintro rfl <;> decide

end Lexical

/-- A place in a text with something other than a blank right behind it or right before it. -/
def Inked (before rest : List Char) : Prop :=
  (∃ c cs, rest = c :: cs ∧ Text.isBlank c = false) ∨
    ∃ front c, before = front ++ [c] ∧ Text.isBlank c = false

/-- A token has something other than a blank at either end. -/
theorem inked_of_mem_tokens {source : String} {t : Token} (h : t ∈ tokens source) {p : Position}
    (hp : p = t.span.start ∨ p = t.span.stop) :
    ∃ before rest, source.toList = before ++ rest ∧ p = .behind before ∧ Inked before rest := by
  obtain ⟨before, c, cs, hsource, hk, -, hspan⟩ := Lexical.nextLexeme_of_token h
  obtain ⟨hsplit, hne, -⟩ := Lexical.nextLexeme_sound c cs
  rw [hspan] at hp
  rcases hp with hp | hp
  · exact ⟨before, c :: cs, hsource, hp, Or.inl ⟨c, cs, rfl, Lexical.not_isBlank_of_kept hk⟩⟩
  · refine ⟨before ++ (Lexical.nextLexeme c cs).1.text, (Lexical.nextLexeme c cs).2, ?_, hp,
      Or.inr ?_⟩
    · rw [hsource, List.append_assoc, ← hsplit]
    · refine ⟨before ++ (Lexical.nextLexeme c cs).1.text.dropLast,
        (Lexical.nextLexeme c cs).1.text.getLast hne, ?_,
        Lexical.not_isBlank_of_last hk (List.getLast?_eq_getLast_of_ne_nil hne)⟩
      rw [List.append_assoc, List.dropLast_append_getLast hne]

open Grammar in
/-- What a text is refused for is reported at an end of a token, and what is missing behind the last
one. -/
theorem token_of_compile_error {source : String} {withPrelude : Bool} {d : Diagnostic}
    (h : compile source withPrelude = .error d) :
    (∃ t ∈ tokens source, d.pos = t.span.start ∨ d.pos = t.span.stop) ∧
      ∀ expected, d.cause = .missingSyntax expected →
        ∃ final, (tokens source).getLast? = some final ∧ d.pos = final.span.stop := by
  rcases compile_eq_error h with hcheck | ⟨hcheck, hbind, hmeaning⟩
  · obtain ⟨final, hfinal, ⟨t, ht, rfl⟩ | ⟨expected, rfl⟩⟩ := check_reports hcheck
    · exact ⟨⟨t, ht, Or.inl rfl⟩, by rintro expected ⟨⟩⟩
    · exact ⟨⟨final, List.mem_of_getLast? hfinal, Or.inr rfl⟩, fun _ _ => ⟨final, hfinal, rfl⟩⟩
  · refine ⟨token_of_report hcheck hbind, fun expected hexpected => ?_⟩
    rw [hexpected] at hmeaning
    cases hmeaning

namespace Report

open Text

theorem isBlank_of_isIndent {c : Char} (h : isIndent c = true) : isBlank c = true := by
  simp only [isIndent, Bool.or_eq_true, beq_iff_eq] at h
  rcases h with rfl | rfl <;> decide

theorem not_isIndent {c : Char} (h : isBlank c = false) : isIndent c = false := by
  cases hc : isIndent c with
  | false => rfl
  | true =>
    rw [isBlank_of_isIndent hc] at h
    cases h

/-- Spaces and tabs take one byte each. -/
theorem size_indent (cs : List Char) :
    size (cs.takeWhile isIndent) = (cs.takeWhile isIndent).length := by
  refine (size_eq_length_iff _).mpr fun c hc => ?_
  have hindent := List.mem_takeWhile_imp hc
  simp only [isIndent, Bool.or_eq_true, beq_iff_eq] at hindent
  rcases hindent with rfl | rfl <;> decide

section
variable {before rest : List Char}

/-- What is not blank before a place, with nothing blank at it, is on its line. -/
theorem lastLine_concat {c : Char} (h : isBlank c = false) (front : List Char) :
    lastLine (front ++ [c]) = lastLine front ++ [c] := by
  refine lastLine_append ?_
  intro hmem
  obtain rfl := List.mem_singleton.mp hmem
  revert h
  decide

/-- The line behind a place that something stands at. -/
theorem restOfLine_cons {c : Char} (h : isBlank c = false) (cs : List Char) :
    restOfLine (c :: cs) = c :: restOfLine cs := by
  have hne : c ≠ '\n' := by
    rintro rfl
    revert h
    decide
  simp [restOfLine, hne]

theorem takeWhile_append_of_stop {p : Char → Bool} {xs ys : List Char}
    (h : (∃ y ∈ ys.head?, p y = false) ∨ ∃ x ∈ xs, p x = false) :
    (xs ++ ys).takeWhile p = xs.takeWhile p ∧ (xs ++ ys).dropWhile p = xs.dropWhile p ++ ys := by
  have htake : (xs ++ ys).takeWhile p = xs.takeWhile p := by
    induction xs with
    | nil =>
      obtain ⟨y, hy, hp⟩ := h.resolve_right (by simp)
      obtain ⟨rest, rfl⟩ := List.head?_eq_some_iff.mp hy
      simp [hp]
    | cons x xs ih =>
      cases hx : p x with
      | false => simp [hx]
      | true =>
        rw [List.cons_append, List.takeWhile_cons_of_pos hx, List.takeWhile_cons_of_pos hx, ih]
        refine h.imp id ?_
        rintro ⟨z, hz, hp⟩
        rcases List.mem_cons.mp hz with rfl | hz
        · rw [hx] at hp
          cases hp
        · exact ⟨z, hz, hp⟩
  refine ⟨htake, (List.append_right_inj (xs.takeWhile p)).mp ?_⟩
  rw [← List.append_assoc, List.takeWhile_append_dropWhile, ← htake,
    List.takeWhile_append_dropWhile]

/-- The blanks at the start of a line end before every place on it that is inked. -/
theorem indent_before (h : Inked before rest) :
    (lastLine before ++ restOfLine rest).takeWhile isIndent = (lastLine before).takeWhile isIndent ∧
      (lastLine before ++ restOfLine rest).dropWhile isIndent =
        (lastLine before).dropWhile isIndent ++ restOfLine rest := by
  apply takeWhile_append_of_stop
  rcases h with ⟨c, cs, rfl, hc⟩ | ⟨front, c, rfl, hc⟩
  · exact Or.inl ⟨c, by rw [restOfLine_cons hc]; rfl, not_isIndent hc⟩
  · exact Or.inr ⟨c, by rw [lastLine_concat hc]; simp, not_isIndent hc⟩

/-- The shown line breaks off behind every place that is inked. -/
theorem excerpt_behind (h : Inked before rest) :
    excerpt (lastLine before ++ restOfLine rest) =
      (lastLine before).dropWhile isIndent ++ trimEnd (restOfLine rest) := by
  rw [excerpt, (indent_before h).2]
  refine trimEnd_append ?_
  rcases h with ⟨c, cs, rfl, hc⟩ | ⟨front, c, rfl, hc⟩
  · left
    rw [restOfLine_cons hc]
    exact trimEnd_ne_nil hc
  · -- The last character before the place is no indent, so it is the last one that is shown, too.
    right
    have hstop : ∃ y ∈ [c].head?, isIndent y = false := ⟨c, rfl, not_isIndent hc⟩
    rw [lastLine_concat hc, (takeWhile_append_of_stop (Or.inl hstop)).2, List.getLast?_concat]
    simpa using hc

/-- How wide the arrow to an inked place is. -/
theorem arrowWidth_behind (h : Inked before rest) :
    arrowWidth (lastLine before ++ restOfLine rest) (size (lastLine before)) =
      size ((lastLine before).dropWhile isIndent) + 1 := by
  have hsplit : size (lastLine before) = ((lastLine before).takeWhile isIndent).length +
      size ((lastLine before).dropWhile isIndent) := by
    rw [← size_indent, ← size_append, List.takeWhile_append_dropWhile]
  rw [arrowWidth, (indent_before h).1, hsplit]
  omega

end

/-- What stands in front of the source on the line that shows it. -/
def gutter (line : Nat) : List Char :=
  (lineNumber line).toList ++ [' ', '|', ' ']

/-- What stands in front of the caret, if that is moved by the given number of characters. -/
def padding (line moved : Nat) : List Char :=
  (bar line).toList ++ ' ' :: List.replicate moved '-'

/-- The two lines that a report ends with: `shown` and `behind` make up the line of source, and
`pad` stands before the caret. -/
def EndsIn (text : String) (shown behind pad : List Char) : Prop :=
  (∃ front, text.toList = front ++ '\n' :: (shown ++ behind ++ '\n' :: (pad ++ ['^', '\n']))) ∧
    '\n' ∉ shown ++ behind ∧ '\n' ∉ pad ∧ '^' ∉ pad

theorem isDigit_of_mem_lineNumber {line : Nat} {c : Char} (h : c ∈ (lineNumber line).toList) :
    '0' ≤ c ∧ c ≤ '9' :=
  Numeral.isDigit_of_mem_decimal h

/-- Both lines start with as many characters for the line number. -/
theorem length_padding (line moved : Nat) :
    (padding line moved).length = (gutter line).length + moved := by
  simp only [padding, gutter, bar, flushRight, String.toList_ofList, List.length_append,
    List.length_replicate, List.length_cons, List.length_nil, String.length_toList]
  omega

theorem not_mem_padding {c : Char} (hc : c ∉ [' ', '|', '-']) (line moved : Nat) :
    c ∉ padding line moved := by
  simp only [List.mem_cons, List.not_mem_nil, or_false, not_or] at hc
  simp [padding, bar, flushRight, hc]

theorem feed_not_mem_gutter (line : Nat) : '\n' ∉ gutter line := by
  intro h
  rcases List.mem_append.mp h with h | h
  · exact absurd (isDigit_of_mem_lineNumber h).1 (by decide)
  · revert h
    decide

/-- **The report on an inked place**: when there is one, and its last two lines. -/
theorem render?_behind {source : String} (file : String) {before rest : List Char} {d : Diagnostic}
    (hsource : source.toList = before ++ rest) (hpos : d.pos = .behind before)
    (h : Inked before rest) :
    ((render? d file source).isSome ↔ d.pos.line + 1 < Numeral.limit ∧
        size ((lastLine before).dropWhile isIndent) < widestArrow) ∧
      ∀ text, render? d file source = some text →
        EndsIn text (gutter d.pos.line ++ (lastLine before).dropWhile isIndent)
          (trimEnd (restOfLine rest))
          (padding d.pos.line (size ((lastLine before).dropWhile isIndent))) := by
  have hline : Text.line source.toList d.pos.line = lastLine before ++ restOfLine rest := by
    rw [hsource, hpos]
    exact line_behind before rest
  have hwidth : arrowWidth (Text.line source.toList d.pos.line) d.pos.column =
      size ((lastLine before).dropWhile isIndent) + 1 := by
    rw [hline, hpos]
    exact arrowWidth_behind h
  have hrender : render? d file source =
      if d.pos.line + 1 < Numeral.limit ∧
          size ((lastLine before).dropWhile isIndent) < widestArrow then
        some (opening d file source ++ (bar d.pos.line ++ " " ++ String.ofList (flushRight '-'
          (size ((lastLine before).dropWhile isIndent) + 1) '^') ++ "\n"))
      else none := by
    simp only [render?, pointer?, hwidth, Nat.succ_le_iff]
    by_cases hnumber : d.pos.line + 1 < Numeral.limit
    · by_cases hfits : size ((lastLine before).dropWhile isIndent) < widestArrow
      · rw [if_pos hnumber, if_pos hfits, if_pos ⟨hnumber, hfits⟩]
        rfl
      · rw [if_pos hnumber, if_neg hfits, if_neg fun hboth => hfits hboth.2]
        rfl
    · rw [if_neg hnumber, if_neg fun hboth => hnumber hboth.1]
  rw [hrender]
  constructor
  · split <;> simp_all
  · intro text htext
    obtain ⟨-, hdrawn⟩ := Option.ite_none_right_eq_some.mp htext
    obtain rfl := Option.some.inj hdrawn
    refine ⟨⟨(title d.cause ++ "\n" ++ "-> " ++ file ++ "\n" ++ bar d.pos.line).toList, ?_⟩, ?_,
      not_mem_padding (by decide) _ _, not_mem_padding (by decide) _ _⟩
    · simp [opening, hline, excerpt_behind h, gutter, padding, flushRight]
    · simp only [List.mem_append, not_or]
      refine ⟨⟨feed_not_mem_gutter _, fun hmem => ?_⟩, feed_not_mem_trimEnd_restOfLine rest⟩
      exact feed_not_mem_lastLine before ((List.dropWhile_suffix _).subset hmem)

end Report

/-- **When the caret stands under the place.**  Whatever a text is refused for, the report on it is
printed just if there are less than 65535 bytes between the blanks at the start of the line and the
place.  Its last two lines are then the line of source, cut at the place, and the line with the
caret; and as many characters stand before the caret as before the place just if every character
before the place on its line takes one byte. -/
theorem caret_under_place_iff (source file : String) (withPrelude : Bool) (d : Diagnostic)
    (h : compile source withPrelude = .error d) :
    ∃ before rest, source.toList = before ++ rest ∧ d.pos = .behind before ∧
      (∀ expected, d.cause = .missingSyntax expected →
        ∃ final, (tokens source).getLast? = some final ∧ d.pos = final.span.stop) ∧
      ((Report.render? d file source).isSome ↔ d.pos.line + 1 < Numeral.limit ∧
        Text.size ((Text.lastLine before).dropWhile Report.isIndent) < Report.widestArrow) ∧
      ∀ text, Report.render? d file source = some text → ∃ shown pad,
        shown = Report.gutter d.pos.line ++ (Text.lastLine before).dropWhile Report.isIndent ∧
        Report.EndsIn text shown (Text.trimEnd (Text.restOfLine rest)) pad ∧
        (pad.length = shown.length ↔ ∀ c ∈ Text.lastLine before, c.utf8Size = 1) := by
  obtain ⟨⟨t, ht, hend⟩, hmissing⟩ := token_of_compile_error h
  obtain ⟨before, rest, hsource, hpos, hinked⟩ := inked_of_mem_tokens ht hend
  obtain ⟨hsome, htext⟩ := Report.render?_behind file hsource hpos hinked
  refine ⟨before, rest, hsource, hpos, hmissing, hsome, fun text hrender => ?_⟩
  refine ⟨_, _, rfl, htext text hrender, ?_⟩
  rw [Report.length_padding, List.length_append, Nat.add_left_cancel_iff,
    Text.size_eq_length_iff]
  -- The blanks that are left out take one byte each.
  have hindent := (Text.size_eq_length_iff _).mp (Report.size_indent (Text.lastLine before))
  rw [← List.takeWhile_append_dropWhile (p := Report.isIndent) (l := Text.lastLine before),
    List.forall_mem_append, List.takeWhile_append_dropWhile]
  exact ⟨fun hall => ⟨hindent, hall⟩, And.right⟩

/-- A name on an indented line, with characters of one byte only: the caret is under it. -/
theorem caret_under_indented_name :
    ∃ source d text before rest shown pad, source = "fn f() -> i32 do\n\t  return 1 + y;\nend" ∧
      compile source false = .error d ∧ source.toList = before ++ rest ∧ d.pos = .behind before ∧
      text = "Error: UnresolvedSymbol (`y` is not declared in this scope)\n-> a\n  |\n" ++
        "2 | return 1 + y;\n  | -----------^\n" ∧
      Report.EndsIn text shown (Text.trimEnd (Text.restOfLine rest)) pad ∧
      shown = Report.gutter 1 ++ (Text.lastLine before).dropWhile Report.isIndent ∧
      pad.length = shown.length := by
  obtain ⟨source, hsource⟩ :
      ∃ source, source = "fn f() -> i32 do\n\t  return 1 + y;\nend" := ⟨_, rfl⟩
  have hd : compile source false = .error ⟨.unresolvedSymbol "y", ⟨1, 14, 31⟩⟩ := by
    rw [hsource]
    decide +kernel
  have hrender : Report.render? ⟨.unresolvedSymbol "y", ⟨1, 14, 31⟩⟩ "a" source = some
      ("Error: UnresolvedSymbol (`y` is not declared in this scope)\n-> a\n  |\n" ++
        "2 | return 1 + y;\n  | -----------^\n") := by
    rw [hsource]
    decide +kernel
  have hsmall : source.toList.all (·.utf8Size == 1) = true := by
    rw [hsource]
    decide +kernel
  obtain ⟨before, rest, hsplit, hpos, -, -, htext⟩ := caret_under_place_iff source "a" false _ hd
  obtain ⟨shown, pad, hshown, hends, hiff⟩ := htext _ hrender
  refine ⟨source, _, _, before, rest, shown, pad, hsource, hd, hsplit, hpos, rfl, hends, hshown,
    hiff.mpr fun c hc => of_decide_eq_true (List.all_eq_true.mp hsmall c ?_)⟩
  rw [hsplit]
  exact List.mem_append_left _ ((List.rtakeWhile_suffix _ _).subset hc)

/-- A name behind a letter of two bytes: the caret is one character too far to the right. -/
theorem caret_misses_place :
    ∃ source d text before shown pad, source = "let s: string = \"é\"; x" ∧
      compile source false = .error d ∧ source.toList = before ++ ['x'] ∧ d.pos = .behind before ∧
      Report.render? d "a" source = some text ∧
      shown = Report.gutter d.pos.line ++ before ∧ Report.EndsIn text shown ['x'] pad ∧
      pad.length = shown.length + 1 := by
  refine ⟨_, ⟨.unresolvedSymbol "x", ⟨0, 22, 22⟩⟩,
    "Error: UnresolvedSymbol (`x` is not declared in this scope)\n-> a\n  |\n" ++
      "1 | let s: string = \"é\"; x\n  | ----------------------^\n",
    "let s: string = \"é\"; ".toList, _, "  | ----------------------".toList, rfl,
    by decide +kernel, by decide, by decide +kernel, by decide +kernel, rfl, ?_, by decide +kernel⟩
  refine ⟨⟨"Error: UnresolvedSymbol (`x` is not declared in this scope)\n-> a\n  |".toList, ?_⟩,
    ?_, ?_, ?_⟩
  all_goals decide +kernel

end BlockC
