import BlockC.Proofs.CompileOutcome
import BlockC.Proofs.LineSeam
import BlockC.Proofs.ReportedPlaces
import BlockC.Proofs.TreeLayout
import BlockC.Text.Lines

/-! # Diagnostics point into the text

What a text is refused for is reported where one of its tokens begins or ends: at the record of a
fault (`check_reports`), or where binding finds it (`token_of_report`).  A token lies on one line
(`onLine_of_mem_tokens`), and the line with the number of a place is the line around it
(`line_behind`), so the line that is shown is not empty.  Of text that fits nowhere the first word
is shown, and the text goes on with it (`firstWord_of_token`).
-/
namespace BlockC

/-! ### The line around a place -/

namespace Text

/-- A text up to its first line feed, and with it. -/
def restOfLine (cs : List Char) : List Char :=
  cs.takeWhile (· != '\n') ++ (cs.dropWhile (· != '\n')).take 1

theorem restOfLine_prefix (cs : List Char) : restOfLine cs <+: cs := by
  have hsplit := List.takeWhile_append_dropWhile (p := (· != '\n')) (l := cs)
  conv_rhs => rw [← hsplit]
  exact (List.prefix_append_right_inj _).mpr (List.take_prefix _ _)

theorem restOfLine_ne_nil {cs : List Char} (h : cs ≠ []) : restOfLine cs ≠ [] := by
  cases cs with
  | nil => exact absurd rfl h
  | cons c cs =>
    by_cases hc : c = '\n' <;> simp [restOfLine, hc]

/-- The last line of a text that goes on without a line feed. -/
theorem lastLine_append {front back : List Char} (h : '\n' ∉ back) :
    lastLine (front ++ back) = lastLine front ++ back := by
  have hback : ∀ c ∈ back.reverse, (c != '\n') = true := by
    intro c hc
    simp only [bne_iff_ne]
    rintro rfl
    exact h (List.mem_reverse.mp hc)
  rw [lastLine, lastLine, List.rtakeWhile, List.rtakeWhile, List.reverse_append,
    List.takeWhile_append_of_pos hback, List.reverse_append, List.reverse_reverse]

/-- What stands in front of a line feed is not part of the last line. -/
theorem lastLine_behind_feed (front back : List Char) :
    lastLine (front ++ '\n' :: back) = lastLine back := by
  -- From the end of the text: each further character goes on with the last line, or starts it.
  induction back using List.reverseRecOn with
  | nil => simp [lastLine]
  | append_singleton back c ih =>
    rw [← List.cons_append, ← List.append_assoc]
    by_cases hc : c = '\n'
    · simp [lastLine, hc]
    · have hnot : '\n' ∉ [c] := by simpa using fun h : '\n' = c => hc h.symm
      rw [lastLine_append hnot, lastLine_append hnot, ih]

theorem lines_cons {c : Char} (hc : c ≠ '\n') (cs : List Char) :
    lines (c :: cs) = (c :: (lines cs).headD []) :: (lines cs).tail := by
  rw [lines, if_neg hc]
  cases lines cs <;> rfl

theorem line_feed (cs : List Char) (k : Nat) : line ('\n' :: cs) (k + 1) = line cs k := by
  simp [line, lines]

theorem line_zero (cs : List Char) : line cs 0 = restOfLine cs := by
  induction cs with
  | nil => rfl
  | cons c cs ih =>
    by_cases hc : c = '\n'
    · simp [line, lines, restOfLine, hc]
    · have hhead : (lines cs).headD [] = line cs 0 := by
        unfold line
        cases lines cs <;> rfl
      rw [line, lines_cons hc, hhead, ih]
      simp [restOfLine, hc]

theorem line_skip {front : List Char} (h : '\n' ∉ front) (cs : List Char) (k : Nat) :
    line (front ++ cs) (k + 1) = line cs (k + 1) := by
  induction front with
  | nil => rfl
  | cons c front ih =>
    have hc : c ≠ '\n' := fun heq => h (by simp [heq])
    rw [List.cons_append, line, lines_cons hc, ← ih fun hmem => h (by simp [hmem])]
    unfold line
    cases lines (front ++ cs) <;> rfl

/-- **The line of a text whose number is that of the line feeds before a place is the line around
that place.** -/
theorem line_behind (before rest : List Char) :
    line (before ++ rest) (before.count '\n') = lastLine before ++ restOfLine rest := by
  generalize hk : before.count '\n' = k
  induction k generalizing before with
  | zero =>
    have hnone : '\n' ∉ before := List.count_eq_zero.mp hk
    have hlast : lastLine before = before := by
      rw [← List.nil_append before, lastLine_append hnone]
      rfl
    rw [line_zero, hlast, restOfLine, restOfLine, List.takeWhile_append_of_pos,
      List.dropWhile_append_of_pos, List.append_assoc]
    all_goals
      intro c hc
      simp only [bne_iff_ne]
      rintro rfl
      exact hnone hc
  | succ k ih =>
    -- The first line ends with a line feed; what is behind it has one fewer.
    have hmem : '\n' ∈ before := List.count_pos_iff.mp (by omega)
    obtain ⟨front, back, rfl, hfront⟩ := List.eq_append_cons_of_mem hmem
    have hcount : back.count '\n' = k := by
      rw [List.count_append, List.count_eq_zero.mpr hfront, List.count_cons_self] at hk
      omega
    rw [List.append_assoc, line_skip hfront, List.cons_append, line_feed, ih back hcount,
      lastLine_behind_feed]

/-- Of two starts of a text the smaller one is a start of the other. -/
theorem prefix_of_size_le {front back cs : List Char} (hfront : front <+: cs) (hback : back <+: cs)
    (h : size front ≤ size back) : front <+: back := by
  rcases List.prefix_or_prefix_of_prefix hfront hback with hle | ⟨more, rfl⟩
  · exact hle
  · cases more with
    | nil => simp
    | cons c more =>
      have hmore : 0 < size (c :: more) := size_pos (List.cons_ne_nil c more)
      rw [size_append] at h
      omega

theorem firstWord_cons {c : Char} (h : isBlank c = false) (cs : List Char) :
    firstWord (c :: cs) = c :: cs.takeWhile (fun c => !isBlank c) := by
  simp [firstWord, h]

end Text

theorem Position.after_behind (before cs : List Char) :
    (behind before).after cs = behind (before ++ cs) := by
  rw [← after_origin, ← after_origin, after_append]

/-! ### Tokens lie on one line -/

theorem Pattern.not_mem_of_avoids {p : Pattern} {c : Char} {w : List Char}
    (hp : p.avoids c = true) (h : Matches p w) : c ∉ w := by
  induction h with
  | one hd =>
    intro hmem
    obtain rfl := List.mem_singleton.mp hmem
    simp [avoids, hd] at hp
  | seq _ _ iha ihb =>
    obtain ⟨ha, hb⟩ := Bool.and_eq_true_iff.mp hp
    rw [List.mem_append, not_or]
    exact ⟨iha ha, ihb hb⟩
  | altLeft _ ih => exact ih (Bool.and_eq_true_iff.mp hp).1
  | altRight _ ih => exact ih (Bool.and_eq_true_iff.mp hp).2
  | manyNil => exact List.not_mem_nil
  | manyCons _ _ iha ihmore =>
    rw [List.mem_append, not_or]
    exact ⟨iha hp, ihmore hp⟩

namespace Lexical

open Pattern

/-- What a rule takes is dropped, or has no line feed. -/
theorem skip_or_avoids {r : Rule} (h : r ∈ rules) :
    r.action = .skip ∨ r.pattern.avoids '\n' = true := by
  rcases List.mem_append.mp h with h | h
  · simp only [List.mem_cons, List.not_mem_nil, or_false] at h
    rcases h with rfl | rfl | rfl | rfl | rfl | rfl
    · exact Or.inr (by decide)
    · exact Or.inr (by decide)
    · exact Or.inl rfl
    · exact Or.inr (by decide)
    · exact Or.inl rfl
    · exact Or.inl rfl
  · obtain ⟨p, -, rfl⟩ := List.mem_map.mp h
    refine Or.inr ?_
    cases p <;> decide

section
variable {c : Char} {cs : List Char} {kind : Kind}

/-- No token starts with a blank. -/
theorem not_isBlank_of_kept (h : (nextLexeme c cs).1.kind? = some kind) :
    Text.isBlank c = false := by
  cases hc : Text.isBlank c with
  | false => rfl
  | true =>
    have hrun : ∀ d ∈ cs.takeWhile Text.isBlank, Text.isBlank d = true :=
      fun d hd => List.all_eq_true.mp List.all_takeWhile d hd
    have hstop : ∀ d, (cs.dropWhile Text.isBlank).head? = some d → Text.isBlank d = false := by
      intro d hd
      have hhead := List.head?_dropWhile_not Text.isBlank cs
      rw [hd] at hhead
      simpa using hhead
    have hnext := nextLexeme_blanks hc hrun hstop
    rw [List.takeWhile_append_dropWhile] at hnext
    rw [hnext] at h
    cases h

/-- No token has a line feed. -/
theorem feed_not_mem_of_kept (h : (nextLexeme c cs).1.kind? = some kind) :
    '\n' ∉ (nextLexeme c cs).1.text := by
  have hblank := not_isBlank_of_kept h
  unfold nextLexeme at h ⊢
  cases hfirst : firstMatch? rules (c :: cs) with
  | none =>
    intro hmem
    obtain rfl := List.mem_singleton.mp hmem
    revert hblank
    decide
  | some m =>
    obtain ⟨r, front, rest⟩ := m
    rw [hfirst] at h
    obtain ⟨hr, -, -, hm⟩ := firstMatch?_sound hfirst
    rcases skip_or_avoids hr with hskip | havoids
    · simp [Lexeme.kind?, hskip] at h
    · exact not_mem_of_avoids havoids hm

end

/-- Each lexeme of a text is the next one somewhere in it. -/
theorem nextLexeme_of_mem {bound before rest : List Char} {item : Lexeme × Span}
    (h : item ∈ lexemes bound ⟨rest, .behind before⟩) :
    ∃ gap c cs, rest = gap ++ c :: cs ∧ item.1 = (nextLexeme c cs).1 ∧
      item.2 = ⟨.behind (before ++ gap), .behind (before ++ gap ++ item.1.text)⟩ := by
  induction bound generalizing before rest with
  | nil => simp [lexemes] at h
  | cons b bound ih =>
    cases rest with
    | nil => simp [lexemes] at h
    | cons c cs =>
      simp only [lexemes, Position.after_behind, List.mem_cons] at h
      rcases h with rfl | h
      · exact ⟨[], c, cs, rfl, rfl, by simp⟩
      · obtain ⟨gap, c', cs', hrest, hitem, hspan⟩ := ih h
        refine ⟨(nextLexeme c cs).1.text ++ gap, c', cs', ?_, hitem, by simpa using hspan⟩
        rw [List.append_assoc, ← hrest]
        exact (nextLexeme_sound c cs).1

/-- Each token of a text is the next lexeme somewhere in it. -/
theorem nextLexeme_of_token {source : String} {t : Token} (h : t ∈ tokens source) :
    ∃ before c cs, source.toList = before ++ c :: cs ∧
      (nextLexeme c cs).1.kind? = some t.kind ∧
      t.value = String.ofList (nextLexeme c cs).1.text ∧
      t.span = ⟨.behind before, .behind (before ++ (nextLexeme c cs).1.text)⟩ := by
  obtain ⟨⟨l, span⟩, hmem, htok⟩ := List.mem_filterMap.mp h
  have hfrom : (l, span) ∈ lexemes source.toList ⟨source.toList, .behind []⟩ := hmem
  obtain ⟨before, c, cs, hsource, hl, hspan⟩ := nextLexeme_of_mem hfrom
  obtain ⟨kind, hk, rfl⟩ := Option.map_eq_some_iff.mp htok
  obtain rfl : l = (nextLexeme c cs).1 := hl
  exact ⟨before, c, cs, hsource, hk, rfl, hspan⟩

end Lexical

/-- A token that stands in a text, on one line and without blanks in front of it. -/
def Token.OnLine (source : List Char) (t : Token) : Prop :=
  ∃ before c cs rest, source = before ++ c :: cs ++ rest ∧ Text.isBlank c = false ∧
    '\n' ∉ c :: cs ∧ t.span = ⟨.behind before, .behind (before ++ c :: cs)⟩

/-- **Every token of a text stands on one line of it.** -/
theorem onLine_of_mem_tokens {source : String} {t : Token} (h : t ∈ tokens source) :
    t.OnLine source.toList := by
  obtain ⟨before, c, cs, hsource, hk, -, hplaces⟩ := Lexical.nextLexeme_of_token h
  obtain ⟨hsplit, hne, -⟩ := Lexical.nextLexeme_sound c cs
  have hblank := Lexical.not_isBlank_of_kept hk
  have hfeed := Lexical.feed_not_mem_of_kept hk
  rw [hsource]
  generalize (Lexical.nextLexeme c cs).1.text = value at hsplit hne hfeed hplaces
  generalize (Lexical.nextLexeme c cs).2 = rest at hsplit
  cases value with
  | nil => exact absurd rfl hne
  | cons d value =>
    obtain ⟨rfl, rfl⟩ := List.cons.inj hsplit
    exact ⟨before, c, value, rest, by simp, hblank, hfeed, hplaces⟩

/-- There is something on the line around an end of a token. -/
theorem Token.OnLine.line_ne_nil {cs : List Char} {t : Token} (h : t.OnLine cs) {p : Position}
    (hp : p = t.span.start ∨ p = t.span.stop) :
    ∃ before rest, cs = before ++ rest ∧ p = .behind before ∧
      Text.lastLine before ++ Text.restOfLine rest ≠ [] := by
  obtain ⟨before, c, value, rest, hcs, -, hfeed, hspan⟩ := h
  rw [hspan] at hp
  rcases hp with hp | hp
  · refine ⟨before, c :: value ++ rest, by rw [hcs, List.append_assoc], hp, ?_⟩
    exact List.append_ne_nil_of_right_ne_nil _ (Text.restOfLine_ne_nil (by simp))
  · refine ⟨before ++ c :: value, rest, hcs, hp, ?_⟩
    rw [Text.lastLine_append hfeed]
    simp

/-! ### The ends of nodes -/

namespace Node

mutual

/-- Where a node of a tree begins or ends, a leaf of it does. -/
theorem Tight.place_of_leaf : ∀ {n : Node} {p : Position}, n.Tight → p ∈ n.places →
    ∃ s ∈ leafSpans [n], p = s.start ∨ p = s.stop
  | mk head children, p, h, hp => by
    obtain ⟨first, last, hfirst, hlast, hspan⟩ := h.leafEnds
    have hhead : head.span = ⟨first.start, last.stop⟩ := hspan
    simp only [places, List.mem_cons, hhead] at hp
    rcases hp with hp | hp | hp
    · exact ⟨first, List.mem_of_mem_head? hfirst, Or.inl hp⟩
    · exact ⟨last, List.mem_of_getLast? hlast, Or.inr hp⟩
    · obtain ⟨s, hs, hends⟩ := AllTight.place_of_leaf h.2 hp
      have hne : children ≠ [] := by
        rintro rfl
        cases hs
      exact ⟨s, by rwa [leafSpans_mk head hne], hends⟩

theorem AllTight.place_of_leaf : ∀ {ns : List Node} {p : Position}, AllTight ns →
    p ∈ allPlaces ns → ∃ s ∈ leafSpans ns, p = s.start ∨ p = s.stop
  | n :: rest, p, h, hp => by
    rw [leafSpans_cons]
    rcases List.mem_append.mp hp with hp | hp
    · obtain ⟨s, hs, hends⟩ := Tight.place_of_leaf h.1 hp
      exact ⟨s, List.mem_append_left _ hs, hends⟩
    · obtain ⟨s, hs, hends⟩ := AllTight.place_of_leaf h.2 hp
      exact ⟨s, List.mem_append_right _ hs, hends⟩

end

/-- The search for what is wrong goes past trees in order. -/
theorem firstDefect?_append {source : ByteArray} {front : List Node} (h : ∀ n ∈ front, n.Clean)
    (back : List Node) : firstDefect? source (front ++ back) = firstDefect? source back := by
  have hnone : firstDefect? source front = none := firstDefect?_eq_none_iff.mpr h
  fun_induction firstDefect? source front with
  | case1 => rfl
  | case2 => cases hnone
  | case3 head children rest hhead ih =>
    rw [List.cons_append, firstDefect?, hhead, ← List.append_assoc]
    exact ih (firstDefect?_eq_none_iff.mp hnone) hnone

theorem extent_leaves {pos : Position} {ts : List Token} {first final : Token}
    (hfirst : ts.head? = some first) (hfinal : ts.getLast? = some final) :
    extent pos (ts.map leaf) = ⟨first.span.start, final.span.stop⟩ := by
  simp [extent, hfirst, hfinal, leaf, span]

/-- The first word between two places of a text. -/
theorem firstWord_between {source : String} {before front rest : List Char}
    (h : source.toList = before ++ front ++ rest) :
    firstWord source.toUTF8 ⟨.behind before, .behind (before ++ front)⟩ =
      String.ofList (Text.firstWord front) := by
  have hslice := Utf8.slice?_between h
  rw [Position.after_origin, Position.after_origin] at hslice
  simp only [firstWord, hslice, Utf8.lossy, fromUTF8?_toUTF8, String.toList_ofList]

end Node

namespace Grammar

variable {source : String} {d : Diagnostic}

/-- **The text from a token on to the last one begins with its first word.** -/
theorem firstWord_of_token {t final : Token} (ht : t ∈ tokens source)
    (hfinal : (tokens source).getLast? = some final) :
    ∃ before rest, source.toList = before ++ rest ∧ t.span.start = .behind before ∧
      Node.firstWord source.toUTF8 ⟨t.span.start, final.span.stop⟩ ≠ "" ∧
      (Node.firstWord source.toUTF8 ⟨t.span.start, final.span.stop⟩).toList <+: rest := by
  obtain ⟨before, c, cs, rest, hsource, hblank, -, hspan⟩ := onLine_of_mem_tokens ht
  obtain ⟨before', c', cs', rest', hsource', -, -, hspan'⟩ :=
    onLine_of_mem_tokens (List.mem_of_getLast? hfinal)
  -- The last token ends no earlier than this one, so its end is reached by going on from here.
  have hstop := stop_le_last hfinal t ht
  rw [hspan, hspan'] at hstop
  obtain ⟨more, hmore⟩ : before ++ c :: cs <+: before' ++ c' :: cs' :=
    Text.prefix_of_size_le ⟨rest, hsource.symm⟩ ⟨rest', hsource'.symm⟩ hstop
  have hwhole : source.toList = before ++ c :: (cs ++ more) ++ rest' := by
    rw [hsource', ← hmore]
    simp
  have hword : Node.firstWord source.toUTF8 ⟨t.span.start, final.span.stop⟩ =
      String.ofList (Text.firstWord (c :: (cs ++ more))) := by
    rw [← Node.firstWord_between hwhole, hspan, hspan', ← hmore, List.append_assoc,
      List.cons_append]
  refine ⟨before, c :: (cs ++ more) ++ rest', by rw [hwhole, List.append_assoc],
    by rw [hspan], ?_, ?_⟩
  · rw [hword, Text.firstWord_cons hblank]
    simp
  · rw [hword, Text.firstWord_cons hblank, String.toList_ofList, List.cons_append]
    refine (List.prefix_cons_inj c).mpr ?_
    exact (List.takeWhile_prefix _).trans (List.prefix_append _ _)

/-- What is wrong with the tree of a text is wrong with the record behind its statements. -/
theorem FileShape.firstDefect? {stmts : List Node} {fault : Option Node} {m : Nat}
    (h : FileShape source stmts fault m) :
    Node.firstDefect? source.toUTF8 [parse source] =
      Node.firstDefect? source.toUTF8 fault.toList := by
  have hroot : Node.defect? source.toUTF8
      (Node.assemble "source_file" .origin (stmts ++ fault.toList)).head = none := rfl
  rw [h.root, Node.assemble, Node.firstDefect?]
  rw [Node.assemble, Node.head_mk] at hroot
  rw [hroot, List.append_nil]
  exact Node.firstDefect?_append (fun n hn => (h.nodes n hn).2.1) _

/-- What the check of a text's tree finds: text that fits nowhere from some token on, or something
that never came behind the last token. -/
theorem check_reports (h : (parse source).check source.toUTF8 = .error d) :
    ∃ final, (tokens source).getLast? = some final ∧
      ((∃ t ∈ tokens source, d = ⟨.invalidSyntax
          (Node.firstWord source.toUTF8 ⟨t.span.start, final.span.stop⟩), t.span.start⟩) ∨
        ∃ expected, d = ⟨.missingSyntax expected, final.span.stop⟩) := by
  obtain ⟨stmts, fault, m, hshape⟩ := exists_fileShape source
  unfold Node.check at h
  rw [hshape.firstDefect?] at h
  have hending := hshape.ending
  cases fault with
  | none =>
    rw [Option.toList_none, Node.firstDefect?] at h
    cases h
  | some n =>
    rw [Option.toList_some] at h
    rcases hending with ⟨i, -, hi, rfl⟩ | ⟨kind, named, final, hfinal, rfl⟩
    · -- The record lies from the first token that it holds to the last one of the text.
      obtain ⟨t, behind, hdrop⟩ := List.exists_cons_of_ne_nil
        (List.drop_eq_nil_iff.not.mpr (Nat.not_le.mpr hi))
      obtain ⟨final, hfinal⟩ : ∃ final, (t :: behind).getLast? = some final :=
        ⟨_, List.getLast?_cons⟩
      have hspan : Node.extent .origin ((t :: behind).map Node.leaf) = _ :=
        Node.extent_leaves rfl hfinal
      rw [← hdrop, List.getLast?_drop, if_neg (Nat.not_le.mpr hi)] at hfinal
      refine ⟨final, hfinal, Or.inl ⟨t, List.mem_of_mem_drop (hdrop ▸ List.mem_cons_self), ?_⟩⟩
      rw [hdrop, Node.assemble, hspan, Node.firstDefect?] at h
      exact (Except.error.inj h).symm
    · refine ⟨final, hfinal, Or.inr ⟨kind, ?_⟩⟩
      rw [Node.absent, Node.firstDefect?] at h
      exact (Except.error.inj h).symm

/-- What binding a text in order reports stands at an end of a token. -/
theorem token_of_report (hcheck : (parse source).check source.toUTF8 = .ok ())
    (h : bindTree (parse source) source.toUTF8 = .error d) :
    ∃ t ∈ tokens source, d.pos = t.span.start ∨ d.pos = t.span.stop := by
  obtain ⟨stmts, fault, m, hshape⟩ := exists_fileShape source
  have hclean := Node.check_eq_ok_iff.mp hcheck
  rw [hshape.root, Node.clean_assemble] at hclean
  -- In a tree in order there is no record of a fault, so its places are those of statements.
  obtain rfl : fault = none := by
    cases fault with
    | none => rfl
    | some n =>
      obtain ⟨head, children⟩ := n
      obtain ⟨hmissing, herror, -⟩ := hclean.2 (.mk head children) (by simp)
      rcases hshape.ending.not_clean with hbad | hbad
      · exact absurd (hmissing.symm.trans hbad) (by simp)
      · exact absurd (herror.symm.trans hbad) (by simp)
  have hplace := place_of_report (by rw [hshape.root]; rfl) h
  rw [hshape.root, Option.toList_none, List.append_nil] at hplace
  obtain ⟨s, hs, hends⟩ := Node.AllTight.place_of_leaf
    (Node.allTight_iff.mpr fun n hn => (hshape.nodes n hn).2.2) hplace
  rw [Node.leafSpans_eq, hshape.leaves, List.map_map] at hs
  obtain ⟨t, ht, rfl⟩ := List.mem_map.mp hs
  exact ⟨t, List.mem_of_mem_take ht, hends⟩

end Grammar

open Grammar

/-- A text is refused at a place on a line that is not empty; and what is shown of text that fits
nowhere is found there. -/
theorem place_of_compile_error {source : String} {withPrelude : Bool} {d : Diagnostic}
    (h : compile source withPrelude = .error d) :
    ∃ before rest, source.toList = before ++ rest ∧ d.pos = .behind before ∧
      Text.lastLine before ++ Text.restOfLine rest ≠ [] ∧
      ∀ found, d.cause = .invalidSyntax found → found ≠ "" ∧ found.toList <+: rest := by
  rcases compile_eq_error h with hcheck | ⟨hcheck, hbind, hmeaning⟩
  · obtain ⟨final, hfinal, ⟨t, ht, rfl⟩ | ⟨expected, rfl⟩⟩ := check_reports hcheck
    · obtain ⟨before, rest, hsource, hstart, hne, hword⟩ := firstWord_of_token ht hfinal
      refine ⟨before, rest, hsource, hstart, ?_, ?_⟩
      · have hrest : rest ≠ [] := by
          rintro rfl
          exact hne (by simpa using hword)
        exact List.append_ne_nil_of_right_ne_nil _ (Text.restOfLine_ne_nil hrest)
      · rintro found ⟨⟩
        exact ⟨hne, hword⟩
    · obtain ⟨before, rest, hsource, hstop, hne⟩ :=
        (onLine_of_mem_tokens (List.mem_of_getLast? hfinal)).line_ne_nil (Or.inr rfl)
      exact ⟨before, rest, hsource, hstop, hne, by rintro found ⟨⟩⟩
  · obtain ⟨t, ht, hplace⟩ := token_of_report hcheck hbind
    obtain ⟨before, rest, hsource, hpos, hne⟩ := (onLine_of_mem_tokens ht).line_ne_nil hplace
    refine ⟨before, rest, hsource, hpos, hne, fun found hfound => ?_⟩
    rw [hfound] at hmeaning
    cases hmeaning

/-- **Every diagnostic points into the text.**  What a text is refused for is reported at a place
between two of its characters: the line feeds before it, the bytes behind the last of these and all
bytes before it are counted.  The line with that number is the line around the place, it is not
empty, and behind the column it goes on as the text does.  What is shown of text that fits nowhere
is not empty, and the text goes on with it. -/
theorem diagnostics_point_into_text (source : String) (withPrelude : Bool) (d : Diagnostic)
    (h : compile source withPrelude = .error d) :
    ∃ before rest, source.toList = before ++ rest ∧ d.pos = .behind before ∧
      d.pos.offset ≤ source.utf8ByteSize ∧
      Text.line source.toList d.pos.line = Text.lastLine before ++ Text.restOfLine rest ∧
      Text.line source.toList d.pos.line ≠ [] ∧ Text.restOfLine rest <+: rest ∧
      ∀ found, d.cause = .invalidSyntax found → found ≠ "" ∧ found.toList <+: rest := by
  obtain ⟨before, rest, hsource, hpos, hne, hfound⟩ := place_of_compile_error h
  have hline : Text.line source.toList d.pos.line =
      Text.lastLine before ++ Text.restOfLine rest := by
    rw [hsource, hpos]
    exact Text.line_behind before rest
  have hsize : source.utf8ByteSize = Text.size before + Text.size rest := by
    rw [← Text.size_append, ← hsource, Text.size, String.ofList_toList]
  refine ⟨before, rest, hsource, hpos, ?_, hline, hline ▸ hne, Text.restOfLine_prefix rest, hfound⟩
  rw [hpos, hsize]
  exact Nat.le_add_right _ _

/-- A parenthesis behind a comment of two lines: the comment's last line is shown. -/
theorem stray_parenthesis_is_shown :
    ∃ d before rest, compile "let x: i32 = 1; /* é\nö */ ) foo" false = .error d ∧
      d.cause = .invalidSyntax ")" ∧ d.pos = ⟨1, 6, 28⟩ ∧ d.pos = .behind before ∧
      "let x: i32 = 1; /* é\nö */ ) foo".toList = before ++ rest ∧
      Text.line "let x: i32 = 1; /* é\nö */ ) foo".toList 1 =
        Text.lastLine before ++ Text.restOfLine rest ∧
      ")".toList <+: rest := by
  obtain ⟨source, hsource⟩ : ∃ source, source = "let x: i32 = 1; /* é\nö */ ) foo" := ⟨_, rfl⟩
  have hreport : (match compile source false with
      | .ok _ => none
      | .error d => some (d.cause, d.pos)) = some (.invalidSyntax ")", ⟨1, 6, 28⟩) := by
    rw [hsource]
    decide +kernel
  rw [← hsource]
  cases hd : compile source false with
  | ok code =>
    rw [hd] at hreport
    cases hreport
  | error d =>
    rw [hd] at hreport
    obtain ⟨hcause, hpos⟩ := Prod.mk.inj (Option.some.inj hreport)
    obtain ⟨before, rest, hsplit, hplace, -, hline, -, -, hfound⟩ :=
      diagnostics_point_into_text source false d hd
    rw [show d.pos.line = 1 by rw [hpos]] at hline
    exact ⟨d, before, rest, rfl, hcause, hpos, hplace, hsplit, hline, (hfound ")" hcause).2⟩

end BlockC
