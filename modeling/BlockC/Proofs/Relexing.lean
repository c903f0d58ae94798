import BlockC.Proofs.PlainProgram

/-! # Words with spaces between them

The text of any token is taken whole by the scanner before a space (`scans_lexeme`).  Words that are
taken whole before a blank are scanned one after the other with that blank between them
(`scans_joined`).  So the texts of tokens, written down with spaces between them, are the tokens of
what is written (`words_spaced`), and a plain program is made of the tokens that it is written with
(`words_text`).
-/
namespace BlockC

/-- A word that can stand in a text: its text is one of a token of its kind. -/
def Word.Spelled (w : Word) : Prop :=
  Lexical.IsLexeme w.1 w.2 ∧ w.1 ≠ .unknown

namespace Lexical

theorem scans_lexeme {w : Word} (h : w.Spelled) {rest : List Char} (hrest : Breaks rest) :
    Scans (w.2.toList ++ rest) [w] rest := by
  obtain ⟨kind, s⟩ := w
  obtain ⟨hlexeme, hknown⟩ := h
  cases kind with
  | eof => exact hlexeme.elim
  | unknown => exact absurd rfl hknown
  | number => exact scans_number hlexeme hrest
  | string => exact scans_quoted hlexeme
  | identifier => exact scans_name hlexeme hrest
  | punct p =>
    obtain rfl : s = p.text := hlexeme
    exact scans_punct (hrest.ends p)
  | keyword k =>
    obtain rfl : s = k.text := hlexeme
    exact scans_keyword hrest

/-- No token starts with a blank. -/
theorem starts_lexeme {w : Word} (h : w.Spelled) :
    ∃ c cs, w.2.toList = c :: cs ∧ Text.isBlank c = false := by
  obtain ⟨kind, s⟩ := w
  obtain ⟨hlexeme, hknown⟩ := h
  cases kind with
  | eof => exact hlexeme.elim
  | unknown => exact absurd rfl hknown
  | number =>
    obtain ⟨c, cs, hs, hc⟩ := number_start hlexeme
    exact ⟨c, cs, hs, not_isBlank_of_isWordPart (by simp [isWordPart, hc])⟩
  | string =>
    obtain ⟨body, hs, -⟩ := hlexeme
    exact ⟨'"', body ++ ['"'], hs, by decide⟩
  | identifier =>
    obtain ⟨c, cs, hs, hc, -⟩ := hlexeme.1
    exact ⟨c, cs, hs, not_isBlank_of_isWordPart (by simp [isWordPart, hc])⟩
  | punct p =>
    obtain rfl : s = p.text := hlexeme
    cases hp : p.text.toList with
    | nil => exact absurd hp (by cases p <;> decide)
    | cons c cs => exact ⟨c, cs, rfl, (punct_start hp).2.2.1⟩
  | keyword k =>
    obtain rfl : s = k.text := hlexeme
    cases k <;> exact ⟨_, _, rfl, by decide⟩

/-- A word that the scanner takes whole where the text ends behind it or goes on with `mark`. -/
structure HoldsBefore (mark : Char) (w : Word) : Prop where
  starts : ∃ c cs, w.2.toList = c :: cs ∧ Text.isBlank c = false
  taken : ∀ rest, (∀ d, rest.head? = some d → d = mark) → Scans (w.2.toList ++ rest) [w] rest

theorem holdsBefore_of_spelled {mark : Char} (hmark : Breaks [mark]) {w : Word} (h : w.Spelled) :
    HoldsBefore mark w := by
  refine ⟨starts_lexeme h, fun rest hrest => scans_lexeme h fun d hd => ?_⟩
  rw [hrest d hd]
  exact hmark mark rfl

/-- Words with a blank between them are scanned one after the other. -/
theorem scans_joined (mark : String) {blank : Char} (hmark : mark.toList = [blank])
    (hblank : Text.isBlank blank = true) : ∀ ws : List Word, (∀ w ∈ ws, HoldsBefore blank w) →
      Scans (Text.joined mark (ws.map Prod.snd)).toList ws []
  | [], _ => .done
  | [w], h => by
    have hscan := (h w (by simp)).taken [] (by simp)
    rw [List.append_nil] at hscan
    exact hscan
  | w :: v :: rest, h => by
    have hrest := scans_joined mark hmark hblank (v :: rest) fun u hu => h u (by simp [hu])
    have htext : (Text.joined mark ((w :: v :: rest).map Prod.snd)).toList =
        w.2.toList ++ blank :: (Text.joined mark ((v :: rest).map Prod.snd)).toList := by
      simp [Text.joined, hmark]
    obtain ⟨c, cs, hv, hc⟩ := (h v (by simp)).starts
    have hstart : ∀ d, (Text.joined mark ((v :: rest).map Prod.snd)).toList.head? = some d →
        Text.isBlank d = false := by
      intro d hd
      have hhead : (Text.joined mark ((v :: rest).map Prod.snd)).toList.head? = some c := by
        cases rest <;> simp [Text.joined, hv]
      rw [hhead] at hd
      obtain rfl := Option.some.inj hd
      exact hc
    rw [htext]
    refine ((h w (by simp)).taken _ fun d hd => ?_).trans ((scans_blank hblank hstart).trans hrest)
    exact (Option.some.inj hd).symm

/-- **Words with spaces between them are the tokens of what is written.** -/
theorem words_spaced {ws : List Word} (h : ∀ w ∈ ws, w.Spelled) :
    (tokens (Plain.spaced ws)).map Token.word = ws :=
  words_of_scans (scans_joined " " rfl (by decide) ws fun w hw =>
    holdsBefore_of_spelled (breaks_cons (by decide)) (h w hw))

end Lexical

/-! ### The words of plain programs -/

namespace Plain

/-- Words that can all stand in a text. -/
def Spelled (ws : List Word) : Prop :=
  ∀ w ∈ ws, w.Spelled

@[simp] theorem spelled_nil : Spelled [] := by simp [Spelled]

@[simp] theorem spelled_cons {w : Word} {ws : List Word} :
    Spelled (w :: ws) ↔ w.Spelled ∧ Spelled ws := by simp [Spelled]

@[simp] theorem spelled_append {ws vs : List Word} :
    Spelled (ws ++ vs) ↔ Spelled ws ∧ Spelled vs := by
  simp only [Spelled, List.mem_append, or_imp, forall_and]

@[simp] theorem spelled_punct (p : Punct) : p.word.Spelled :=
  ⟨rfl, by simp [Punct.word]⟩

@[simp] theorem spelled_keyword (k : Keyword) : k.word.Spelled :=
  ⟨rfl, by simp [Keyword.word]⟩

@[simp] theorem spelled_grouped {ws : List Word} : Spelled (grouped ws) ↔ Spelled ws := by
  simp [grouped]

@[simp] theorem spelled_block {ws : List Word} : Spelled (blockWords ws) ↔ Spelled ws := by
  simp [blockWords]

theorem spelled_name {name : String} (h : Lexical.IsName name) :
    Word.Spelled (.identifier, name) :=
  ⟨h, by simp⟩

@[simp] theorem spelled_decimal (value : Nat) :
    Word.Spelled (.number, Numeral.decimal value) :=
  ⟨Lexical.matches_decimal value, by simp⟩

theorem spelled_path {path : List String} (h : IsPath path) :
    Spelled (Grammar.pathWords path) := by
  obtain ⟨-, hnames⟩ := h
  induction path with
  | nil => simp [Grammar.pathWords]
  | cons name rest ih =>
    have hname := spelled_name (hnames name (by simp))
    cases rest with
    | nil => simp [Grammar.pathWords, hname]
    | cons name' rest =>
      have hrest := ih fun s hs => hnames s (by simp [hs])
      simp_all [Grammar.pathWords]

theorem spelled_commas {items : List (List Word)} (h : ∀ ws ∈ items, Spelled ws) :
    Spelled (commaWords items) := by
  induction items with
  | nil => simp [commaWords]
  | cons ws rest ih =>
    have hws := h ws (by simp)
    have hrest := ih fun vs hvs => h vs (by simp [hvs])
    cases rest with
    | nil => simpa [commaWords] using hws
    | cons vs rest => simpa [commaWords, hws] using hrest

mutual

theorem TypeExpr.spelled : ∀ x : TypeExpr, x.Proper → Spelled x.words
  | .name path, h => spelled_path h
  | .pointer pointee, h => by simpa [TypeExpr.words] using pointee.spelled h
  | .array size element, h => by simpa [TypeExpr.words] using element.spelled h
  | .slice element, h => by simpa [TypeExpr.words] using element.spelled h
  | .func params returns, h => by
    have hparams := spelled_commas (TypeExpr.allSpelled params h.1)
    simpa [TypeExpr.words, hparams] using returns.spelled h.2

theorem TypeExpr.allSpelled : ∀ xs : List TypeExpr, TypeExpr.AllProper xs →
    ∀ ws ∈ TypeExpr.itemWords xs, Spelled ws
  | [], _ => by simp [TypeExpr.itemWords]
  | x :: rest, h => by
    simpa [TypeExpr.itemWords, x.spelled h.1] using TypeExpr.allSpelled rest h.2

end

mutual

theorem Expr.spelled : ∀ x : Expr, x.Proper → Spelled x.words
  | .name path, h => spelled_path h
  | .number value, _ => by simp [Expr.words]
  | .string text, h => by
    have htext : Word.Spelled (.string, text) := ⟨h, by simp⟩
    simp [Expr.words, htext]
  | .boolean true, _ | .boolean false, _ | .null, _ => by simp [Expr.words]
  | .binary left op right, h => by
    simpa [Expr.words, left.spelled h.1] using right.spelled h.2.1
  | .unary op argument, h => by simpa [Expr.words] using argument.spelled h.1
  | .condition test yes no, h => by
    simpa [Expr.words, test.spelled h.1, yes.spelled h.2.1] using no.spelled h.2.2.1
  | .call callee args, h => by
    have hargs := spelled_commas (Expr.allSpelled args h.2)
    simpa [Expr.words, hargs] using spelled_path h.1
  | .assignment left op right, h => by
    simpa [Expr.words, left.spelled h.1] using right.spelled h.2.1
  | .parenthesized inner, h => by simpa [Expr.words] using inner.spelled h

theorem Expr.allSpelled : ∀ xs : List Expr, Expr.AllProper xs →
    ∀ ws ∈ Expr.itemWords xs, Spelled ws
  | [], _ => by simp [Expr.itemWords]
  | x :: rest, h => by simpa [Expr.itemWords, x.spelled h.1] using Expr.allSpelled rest h.2

end

theorem Binding.spelled {b : Binding} (h : b.Proper) : Spelled b.words := by
  simp [Binding.words, spelled_name h.1, b.type.spelled h.2]

theorem Header.spelled {header : Header} (h : header.Proper) : Spelled header.words := by
  have hparams : Spelled (commaWords header.paramWords) := by
    refine spelled_commas fun ws hws => ?_
    rcases List.mem_append.mp hws with hws | hws
    · obtain ⟨b, hb, rfl⟩ := List.mem_map.mp hws
      exact Binding.spelled (h.2.1 b hb)
    · cases hv : header.variadic <;> simp_all
  simp [Header.words, spelled_name h.1, hparams, header.returns.spelled h.2.2]

mutual

theorem Stmt.spelled : ∀ s : Stmt, s.Proper → Spelled s.words
  | .empty, _ => by simp [Stmt.words]
  | .mod name, h => by simpa [Stmt.words] using spelled_name h
  | .declare b none, h => by simpa [Stmt.words] using Binding.spelled h.1
  | .declare b (some initial), h => by
    simpa [Stmt.words, Binding.spelled h.1] using initial.spelled (h.2 initial rfl)
  | .externalVariable b, h => by simpa [Stmt.words] using Binding.spelled h
  | .externalFunction header, h => by simpa [Stmt.words] using Header.spelled h
  | .whileLoop test body, h => by
    simpa [Stmt.words, test.spelled h.1] using Stmt.allSpelled body h.2
  | .ifElse test yes otherwise, h => by
    simpa [Stmt.words, test.spelled h.1, Stmt.allSpelled yes h.2.1] using
      otherwise.spelled h.2.2
  | .returned value, h => by simpa [Stmt.words] using value.spelled h
  | .typeAlias name type, h => by
    simpa [Stmt.words, spelled_name h.1] using type.spelled h.2
  | .func header body, h => by
    simpa [Stmt.words, Header.spelled h.1] using Stmt.allSpelled body h.2
  | .expr value, h => by simpa [Stmt.words] using value.spelled h

theorem Otherwise.spelled : ∀ o : Otherwise, o.Proper → Spelled o.words
  | .nothing, _ => by simp [Otherwise.words]
  | .block body, h => by simpa [Otherwise.words] using Stmt.allSpelled body h
  | .further test yes otherwise, h => by
    simpa [Otherwise.words, test.spelled h.1, Stmt.allSpelled yes h.2.1] using
      otherwise.spelled h.2.2

theorem Stmt.allSpelled : ∀ program : List Stmt, Stmt.AllProper program →
    Spelled (Stmt.allWords program)
  | [], _ => by simp [Stmt.allWords]
  | s :: rest, h => by simpa [Stmt.allWords, s.spelled h.1] using Stmt.allSpelled rest h.2

end

/-- **The tokens of the text of a plain program are the words of the program.** -/
theorem words_text {program : List Stmt} (h : Stmt.AllProper program) :
    (tokens (text program)).map Token.word = Stmt.allWords program :=
  Lexical.words_spaced (Stmt.allSpelled program h)

end Plain
end BlockC
