import BlockC.Proofs.LongestMatch
import BlockC.Proofs.Relexing

/-! # One token on each line

Tokens were cut from a text each before whatever followed it there.  Put on lines of their own they
are cut in the same way again (`token_lines`).  No token has a line feed in it, and none needs what
stood behind it: a known one is taken whole before a line feed, and where no rule matched at an
unknown character, none does before a line feed either (`unknown_holds`).
-/
namespace BlockC
namespace Lexical

open Pattern

/-- Where no rule matches at a character, none matches at it before a line feed. -/
theorem split?_none_before_feed {c : Char} {cs rest : List Char}
    (hnone : ∀ r ∈ rules, r.pattern.split? (c :: cs) = none)
    (hrest : ∀ d, rest.head? = some d → d = '\n') :
    ∀ r ∈ rules, r.pattern.split? (c :: rest) = none := by
  have hsingle : ∀ r ∈ rules, ¬ Matches r.pattern [c] := by
    intro r hr hm
    have hsome := (greedy_of_mem hr).isSome (s := c :: cs) ⟨cs, rfl⟩ hm
    rw [hnone r hr] at hsome
    cases hsome
  intro r hr
  cases hs : r.pattern.split? (c :: rest) with
  | none => rfl
  | some cut =>
    obtain ⟨front, back⟩ := cut
    obtain ⟨heq, hm⟩ := split?_sound hs
    obtain ⟨d, front, rfl⟩ := List.exists_cons_of_ne_nil (ne_nil_of_rule hr hm)
    obtain ⟨rfl, hrest'⟩ := List.cons.inj heq
    have hfeed : ∀ e more, front = e :: more → e = '\n' := by
      rintro e more rfl
      exact hrest e (by rw [hrest']; rfl)
    rcases rule_cases hr with hp | hp | ⟨havoids, -⟩
    · -- A blank by itself is a match.
      have hc := (blanks_body (hp ▸ hm)).2 c (by simp)
      refine absurd ?_ (hsingle r hr)
      rw [hp]
      exact .seq (.one hc) .manyNil
    · obtain ⟨body, hbody, -⟩ := blockComment_body (hp ▸ hm)
      exact absurd (hfeed _ _ (List.cons.inj hbody).2) (by decide)
    · cases front with
      | nil => exact absurd hm (hsingle r hr)
      | cons e more =>
        obtain rfl := hfeed e more rfl
        exact absurd (by simp) (not_mem_of_avoids havoids hm)

/-- An unknown token is unknown again before a line feed. -/
theorem unknown_holds {source : String} {t : Token} (ht : t ∈ tokens source)
    (hk : t.kind = .unknown) : HoldsBefore '\n' t.word := by
  obtain ⟨before, c, cs, -, hvalue, -, hnone⟩ := unknown_token ht hk
  have hblank : Text.isBlank c = false :=
    not_isBlank_of_kept (congrArg (fun next => next.1.kind?) (nextLexeme_of_none hnone))
  refine ⟨⟨c, [], hvalue, hblank⟩, fun rest hrest => ?_⟩
  have hnext := nextLexeme_of_none (split?_none_before_feed hnone hrest)
  have hscan : Scans (c :: rest) [(Kind.unknown, String.ofList [c])] rest :=
    .token hnext rfl .done
  have hword : t.word = (Kind.unknown, String.ofList [c]) := by
    rw [Token.word, hk, ← hvalue, String.ofList_toList]
  rw [hword]
  simpa using hscan

/-- Every token is taken whole again before a line feed. -/
theorem token_holds {source : String} {t : Token} (ht : t ∈ tokens source) :
    HoldsBefore '\n' t.word := by
  by_cases hk : t.kind = .unknown
  · exact unknown_holds ht hk
  · exact holdsBefore_of_spelled (breaks_cons (by decide)) ⟨(standsIn_of_mem_tokens ht).lexeme, hk⟩

end Lexical

/-- **Tokens on lines of their own are the same tokens.**  The values of the tokens of a text,
without its end, are joined with line feeds: the tokens of that have the same kinds and values. -/
theorem token_lines (source : String) :
    (tokenize (Text.joined "\n"
      (((tokenize source).filter (·.kind != .eof)).map Token.value))).map Token.word =
      (tokenize source).map Token.word := by
  have hinner : (tokenize source).filter (·.kind != .eof) = tokens source := by
    have hkept : (tokens source).filter (·.kind != .eof) = tokens source :=
      List.filter_eq_self.mpr fun t ht => by
        simpa using kind_ne_eof_of_isLexeme (standsIn_of_mem_tokens ht).lexeme
    rw [tokenize, List.filter_append, hkept]
    simp [Token.eof]
  have hvalues : (tokens source).map Token.value = (words source).map Prod.snd := by
    simp [words, Token.word]
  have hlines := Lexical.words_of_scans (Lexical.scans_joined "\n" rfl (by decide)
    (words source) fun w hw => ?_)
  · have hend (pos : Position) : (Token.eof pos).word = (.eof, "EOF") := rfl
    rw [hinner, hvalues]
    simp only [tokenize, List.map_append, List.map_cons, List.map_nil, hend, hlines]
    rw [words]
  · obtain ⟨t, ht, rfl⟩ := List.mem_map.mp hw
    exact Lexical.token_holds ht

end BlockC
