import BlockC.Proofs.PlainReading

/-! # Types can be read back

The text of a type is made of the tokens of the type (`scans_type`): what stands behind a star, a
dot or an arrow starts with a word or a further mark, and goes on with none of them (`StartsType`).
So the text is read to its end as the same type (`type_text_reads_back`).
-/
namespace BlockC
namespace Lexical

/-! ### The start of a type -/

/-- Text that starts as a type does: with a word, a star or a bracket. -/
def StartsType (s : List Char) : Prop :=
  ∃ c cs, s = c :: cs ∧ (isWordStart c = true ∨ c = '*' ∨ c = '[')

section
variable {s : List Char}

theorem StartsType.append (h : StartsType s) (rest : List Char) : StartsType (s ++ rest) := by
  obtain ⟨c, cs, rfl, hc⟩ := h
  exact ⟨c, cs ++ rest, rfl, hc⟩

theorem StartsType.joined {s : String} (h : StartsType s.toList) (mark : String)
    (rest : List String) : StartsType (Text.joined mark (s :: rest)).toList := by
  cases rest with
  | nil => exact h
  | cons next rest =>
    have htext : Text.joined mark (s :: next :: rest) =
        s ++ (mark ++ Text.joined mark (next :: rest)) := String.append_assoc ..
    rw [htext, String.toList_append]
    exact h.append _

theorem StartsType.not_blank (h : StartsType s) :
    ∀ d, s.head? = some d → Text.isBlank d = false := by
  obtain ⟨c, cs, rfl, hc⟩ := h
  intro d hd
  obtain rfl : c = d := by simpa using hd
  rcases hc with hc | rfl | rfl
  · exact not_isBlank_of_isWordPart (by simp [isWordPart, hc])
  · decide
  · decide

/-- What starts a type goes on with no piece of punctuation before it. -/
theorem StartsType.ends (h : StartsType s) {p : Punct} (hp : p ≠ .slash) : p.Ends s := by
  obtain ⟨c, cs, rfl, hc⟩ := h
  intro d hd
  obtain rfl : c = d := by simpa using hd
  refine ⟨fun q hq => ?_, fun hslash => absurd hslash hp⟩
  have hmem := Punct.mem_of_continues hq
  simp only [List.mem_cons, List.not_mem_nil, or_false] at hmem
  rcases hc with hc | rfl | rfl
  · rcases hmem with rfl | rfl | rfl | rfl | rfl | rfl <;> exact absurd hc (by decide)
  · simp at hmem
  · simp at hmem

end

/-! ### Names -/

theorem startsType_name {s : String} (h : IsName s) : StartsType s.toList := by
  obtain ⟨c, cs, hs, hc, -⟩ := h.1
  exact ⟨c, cs, hs, Or.inl hc⟩

theorem startsType_path {path : List String} (h : IsPath path) :
    StartsType (Text.joined "." path).toList := by
  cases path with
  | nil => exact absurd rfl h.1
  | cons s rest => exact (startsType_name (h.2 s (by simp))).joined "." rest

/-- A dotted name is made of its segments and the dots between them. -/
theorem scansAs_path : ∀ {path : List String}, IsPath path →
    OperatorTree.ScansAs (Text.joined "." path) (Grammar.pathWords path)
  | [], h => absurd rfl h.1
  | [s], h => OperatorTree.scansAs_name (h.2 s (by simp))
  | s :: s' :: rest, h => by
    have hbehind : IsPath (s' :: rest) := ⟨by simp, fun t ht => h.2 t (by simp [ht])⟩
    intro behind hbreaks
    have hname : Scans (s.toList ++ '.' :: ((Text.joined "." (s' :: rest)).toList ++ behind))
        [(.identifier, s)] ('.' :: ((Text.joined "." (s' :: rest)).toList ++ behind)) := by
      refine scans_name_before (h.2 s (by simp)) fun d hd => ?_
      obtain rfl : '.' = d := by simpa using hd
      decide
    have hdot : Scans ('.' :: ((Text.joined "." (s' :: rest)).toList ++ behind)) [Punct.dot.word]
        ((Text.joined "." (s' :: rest)).toList ++ behind) :=
      scans_punct (p := .dot) (((startsType_path hbehind).append behind).ends (by decide))
    simpa [Text.joined, Grammar.pathWords] using
      hname.trans (hdot.trans (scansAs_path hbehind behind hbreaks))

/-! ### Types -/

theorem startsType_text {type : TypeExpr} (h : type.plain.Proper) :
    StartsType type.text.toList := by
  cases type with
  | name path _ => exact startsType_path h
  | pointer pointee _ => exact ⟨'*', pointee.text.toList, by simp [TypeExpr.text], by simp⟩
  | array size element _ =>
    exact ⟨'[', _, by simp only [TypeExpr.text, String.toList_append, List.append_assoc]; rfl,
      by simp⟩
  | slice element _ => exact ⟨'[', ']' :: element.text.toList, by simp [TypeExpr.text], by simp⟩
  | func params returns _ =>
    exact ⟨'f', _, by simp only [TypeExpr.text, String.toList_append, List.append_assoc]; rfl,
      by decide⟩

theorem scans_opening (rest : List Char) : Scans ('[' :: rest) [Punct.openBracket.word] rest :=
  scans_punct (p := .openBracket) (Punct.ends_self (by decide) _)

theorem scans_closing (rest : List Char) : Scans (']' :: rest) [Punct.closeBracket.word] rest :=
  scans_punct (p := .closeBracket) (Punct.ends_self (by decide) _)

/-- The comma between the parameters of a function type. -/
theorem scans_comma {rest : List Char} (h : StartsType rest) :
    Scans (',' :: ' ' :: rest) [Punct.comma.word] rest := by
  have hcomma : Scans (',' :: ' ' :: rest) [Punct.comma.word] (' ' :: rest) :=
    scans_punct (p := .comma) (Punct.ends_self (by decide) _)
  exact hcomma.trans (scans_space h.not_blank)

/-- The arrow before the result of a function type. -/
theorem scans_arrow {rest : List Char} (h : StartsType rest) :
    Scans (' ' :: '-' :: '>' :: ' ' :: rest) [Punct.arrow.word] rest := by
  have hfirst : Scans (' ' :: '-' :: '>' :: ' ' :: rest) [] ('-' :: '>' :: ' ' :: rest) := by
    refine scans_space fun d hd => ?_
    obtain rfl : '-' = d := by simpa using hd
    decide
  have harrow : Scans ('-' :: '>' :: ' ' :: rest) [Punct.arrow.word] (' ' :: rest) :=
    scans_punct (p := .arrow) (Breaks.ends (breaks_cons (by decide)) _)
  exact hfirst.trans (harrow.trans (scans_space h.not_blank))

open OperatorTree (ScansAs scans_grouped scansAs_number)

mutual

/-- **The scanner finds the tokens of a type in its text.** -/
theorem scans_type : ∀ type : TypeExpr, type.plain.Proper → ScansAs type.text type.plain.words
  | .name path _, h => scansAs_path h
  | .pointer pointee _, h => by
    intro rest hrest
    -- Stars behind one another stay apart, since no longer mark starts with two of them.
    have hpointee : StartsType pointee.text.toList := startsType_text h
    have hends : Punct.star.Ends (pointee.text.toList ++ rest) :=
      (hpointee.append rest).ends (by decide)
    have hstar : Scans ('*' :: (pointee.text.toList ++ rest)) [Punct.star.word]
        (pointee.text.toList ++ rest) := scans_punct hends
    simpa [TypeExpr.text, TypeExpr.plain, Plain.TypeExpr.words] using
      hstar.trans (scans_type pointee h rest hrest)
  | .array size element _, h => by
    intro rest hrest
    have hsize := scansAs_number size.toNat (']' :: (element.text.toList ++ rest))
      (breaks_cons (by decide))
    have helement := scans_type element h rest hrest
    simpa [TypeExpr.text, TypeExpr.plain, Plain.TypeExpr.words] using
      (scans_opening _).trans (hsize.trans ((scans_closing _).trans helement))
  | .slice element _, h => by
    intro rest hrest
    simpa [TypeExpr.text, TypeExpr.plain, Plain.TypeExpr.words] using
      (scans_opening _).trans ((scans_closing _).trans (scans_type element h rest hrest))
  | .func params returns _, ⟨hparams, hreturns⟩ => by
    intro rest hrest
    have hkeyword (behind : List Char) : Scans ('f' :: 'n' :: '(' :: behind) [Keyword.fnKw.word]
        ('(' :: behind) := scans_keyword (k := .fnKw) (breaks_cons (by decide))
    have hlist := scans_grouped (scans_types params hparams)
    have harrow := scans_arrow ((startsType_text hreturns).append rest)
    simpa [TypeExpr.text, TypeExpr.plain, Plain.TypeExpr.words] using
      (hkeyword _).trans ((hlist _).trans (harrow.trans (scans_type returns hreturns rest hrest)))

theorem scans_types : ∀ types : List TypeExpr, Plain.TypeExpr.AllProper (TypeExpr.plains types) →
    ScansAs (Text.joined ", " (TypeExpr.texts types))
      (Plain.commaWords (Plain.TypeExpr.itemWords (TypeExpr.plains types)))
  | [], _ => fun _ _ => .done
  | [type], h => scans_type type h.1
  | type :: next :: more, h => by
    intro rest hrest
    have hfirst := scans_type type h.1
    have hmore := scans_types (next :: more) h.2 rest hrest
    have hnext := (startsType_text h.2.1).joined ", " (TypeExpr.texts more)
    have hcomma := scans_comma (hnext.append rest)
    simpa [TypeExpr.texts, TypeExpr.plains, Text.joined, Plain.TypeExpr.itemWords,
      Plain.commaWords] using (hfirst _ (breaks_cons (by decide))).trans (hcomma.trans hmore)

end

end Lexical

/-! ### Reading a type -/

namespace Grammar

/-- Tokens that are read as a production, and that are all there are, are read to their end. -/
theorem Reads.read_ofString {source : String} {p : Production} {next : Token → Prop} {n : Node}
    (h : Reads p next (tokens source) n) (hend : ∀ t : Token, t.kind = .eof → next t) :
    ∃ place, (Stream.ofString source).read p = ⟨.ok n, place, []⟩ ∧ place.ahead = [] := by
  obtain ⟨first, rest, frames, htokens, hbegin, hcompletes⟩ := h
  obtain ⟨stack, htakes, hsettles⟩ := hcompletes []
  rw [List.append_nil] at htakes
  refine read_of_takes htokens hbegin htakes fun stop => ?_
  rw [hsettles _ (hend _ rfl)]
  rfl

end Grammar

/-- **Types can be read back.**  The text of a type, nested to any depth, is read to its end as the
same type, places apart. -/
theorem type_text_reads_back {type : TypeExpr} (h : type.plain.Proper) :
    ∃ node place read, (Grammar.Stream.ofString type.text).read .typeExpr = ⟨.ok node, place, []⟩ ∧
      place.ahead = [] ∧ Surface.typeOf type.text.toUTF8 node = .ok read ∧
      read.plain = type.plain := by
  have hscan := Lexical.scans_type type h [] (by simp [Breaks])
  rw [List.append_nil] at hscan
  obtain ⟨node, read, -, htype, hplain, hreads⟩ := Grammar.reads_type type.plain h
    (tokens type.text) (Lexical.words_of_scans hscan) fun t ht => standsIn_of_mem_tokens ht
  have hend (t : Token) (ht : t.kind = .eof) : Grammar.NoDot t := by simp [Grammar.NoDot, ht]
  obtain ⟨place, hread, hahead⟩ := hreads.read_ofString hend
  exact ⟨node, place, read, hread, hahead, htype, hplain⟩

/-- Marks behind one another, the largest size, and function types among the parameters and in the
result. -/
theorem type_text_reads_back_nested : ∃ type : TypeExpr,
    type.text = "fn(*[4][]a.b, fn() -> *c) -> fn(d, [18446744073709551615]e) -> f" ∧
    type.plain.Proper ∧
    ∃ node place read, (Grammar.Stream.ofString type.text).read .typeExpr = ⟨.ok node, place, []⟩ ∧
      place.ahead = [] ∧ Surface.typeOf type.text.toUTF8 node = .ok read ∧
      read.plain = type.plain := by
  let here : Span := ⟨.origin, .origin⟩
  let stacked : TypeExpr := .pointer (.array 4 (.slice (.name ["a", "b"] here) here) here) here
  let thunk : TypeExpr := .func [] (.pointer (.name ["c"] here) here) here
  let long : TypeExpr := .array 18446744073709551615 (.name ["e"] here) here
  let result : TypeExpr := .func [.name ["d"] here, long] (.name ["f"] here) here
  have hpath : IsPath ["a", "b"] ∧ IsPath ["c"] ∧ IsPath ["d"] ∧ IsPath ["e"] ∧ IsPath ["f"] := by
    decide
  obtain ⟨hab, hc, hd, he, hf⟩ := hpath
  have hproper : (TypeExpr.func [stacked, thunk] result here).plain.Proper :=
    ⟨⟨hab, ⟨trivial, hc⟩, trivial⟩, ⟨hd, he, trivial⟩, hf⟩
  exact ⟨.func [stacked, thunk] result here, by decide, hproper, type_text_reads_back hproper⟩

end BlockC
