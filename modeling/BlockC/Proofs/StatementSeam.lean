import BlockC.Proofs.EarliestFault
import BlockC.Proofs.LineSeam

/-! # Statements behind a semicolon

A text in order is complete before a semicolon just as it is before its end (`feed_semicolon`), and
the statements that a file has are never taken back (`Takes.outermost`).  So the statements of a
text in order come first in every text in order that goes on behind it with a line that starts with
a semicolon (`children_seam`).  Such a text does not end inside a comment, since no operand starts
with a star (`not_opensComment`).
-/
namespace BlockC
namespace Grammar

/-! ### Runs of the stack -/

section
variable {t : Token}

theorem Takes.behind {ts us : List Token} {a b c : Stack} (h : Takes (ts ++ us) a c)
    (hfront : Takes ts a b) : Takes us b c := by
  induction ts generalizing a with
  | nil =>
    obtain rfl : a = b := hfront
    exact h
  | cons t ts ih =>
    obtain ⟨next, hfeed, hrest⟩ := h
    obtain ⟨next', hfeed', hrest'⟩ := hfront
    obtain rfl : next = next' := Step.shift.inj (hfeed.symm.trans hfeed')
    exact ih hrest hrest'

theorem Takes.front {ts us : List Token} {a c : Stack} (h : Takes (ts ++ us) a c) :
    ∃ b, Takes ts a b := by
  induction ts generalizing a with
  | nil => exact ⟨a, rfl⟩
  | cons t ts ih =>
    obtain ⟨next, hfeed, hrest⟩ := h
    obtain ⟨b, hb⟩ := ih hrest
    exact ⟨b, next, hfeed, hb⟩

/-- What the file has stays when a token is taken. -/
theorem outermost_shift {f : Frame} {below : Stack} {frames : List Frame}
    (h : Resting (f :: below)) (hs : f.before t = .shift frames) :
    Stack.outermost (f :: below) <+: Stack.outermost (frames ++ below) := by
  cases below with
  | cons g below =>
    simp only [Stack.outermost, List.getLast?_append, List.getLast?_cons_cons]
    cases hlast : (g :: below).getLast? with
    | none => simp at hlast
    | some last => exact List.prefix_rfl
  | nil =>
    cases h with
    | partly _ h => cases h
    | operators h => cases h
    | @file done =>
      by_cases heof : t.kind = .eof
      · simp [Frame.before, settle, Choice.expand, heof] at hs
      · simp only [Frame.before, settle_topLevel heof] at hs
        split at hs
        · cases hs
          simp [Stack.outermost]
        · cases hs

theorem feed_outermost {stack next : Stack} (h : Resting stack) (hs : feed t stack = .shift next) :
    Stack.outermost stack <+: Stack.outermost next := by
  cases stack with
  | nil => cases h
  | cons f below =>
    obtain ⟨f', below', frames, hrest, hb, rfl, houter⟩ := feed_shift h hs
    exact houter.trans (outermost_shift hrest hb)

/-- **What the file has stays while tokens are taken.** -/
theorem Takes.outermost {ts : List Token} {stack last : Stack} (h : Takes ts stack last)
    (hs : Resting stack) : Stack.outermost stack <+: Stack.outermost last := by
  induction ts generalizing stack with
  | nil =>
    obtain rfl : stack = last := h
    exact List.prefix_rfl
  | cons t ts ih =>
    obtain ⟨next, hfeed, hrest⟩ := h
    have hone : Takes [t] stack next := ⟨next, hfeed, rfl⟩
    exact (feed_outermost hs hfeed).trans (ih hrest (hone.resting hs).2)

/-! ### Another token in place of the end -/

/-- A frame is complete before a token if nothing is left once a choice is opened. -/
theorem partly_complete {kind : String} {done : List Node} {todo : List Part} {n : Node}
    (h : (Frame.partly kind done todo).before t = .complete n) :
    (settle kind t.kind todo).2 = [] ∧
      n = .assemble (settle kind t.kind todo).1 .origin done.reverse := by
  cases Frame.before_eq_complete_iff.mp h with
  | partly hset =>
    rw [hset]
    exact ⟨rfl, rfl⟩

/-- A frame that is complete before some token is so before every quiet one, unless it is the
file. -/
theorem before_quiet {e : Token} {f : Frame} {below : Stack} {n : Node} (ht : Quiet t)
    (h : Resting (f :: below)) (hbelow : below ≠ []) (hb : f.before e = .complete n) :
    f.before t = .complete n := by
  cases h with
  | file => exact absurd rfl hbelow
  | @operators left above _ _ =>
    cases Frame.before_eq_complete_iff.mp hb with
    | operators hle => simp only [Frame.before, ht.1.2]
  | @partly kind done todo _ hr _ =>
    obtain ⟨hnil, rfl⟩ := partly_complete hb
    cases todo with
    | nil => rfl
    | cons part rest =>
      cases part with
      | token k field | node p field | hole field => cases hnil
      | choice c =>
        obtain ⟨hfile, rfl⟩ := hr
        simp only [settle, List.append_eq_nil_iff] at hnil ⊢
        -- Only choices that may be left out, with nothing behind them, are complete.
        have hc : c = .segments ∨ c = .initial ∨ c = .otherwise := by
          obtain ⟨hexpand, hbehind⟩ := hnil
          cases c
          case topLevel => exact absurd rfl hfile
          case segments | initial | otherwise => simp
          case size | alternative | externalForm =>
            unfold Choice.expand at hexpand
            split at hexpand <;> simp_all
          all_goals cases hbehind
        have hrename : c.rename? e.kind = none := by
          rcases hc with rfl | rfl | rfl <;> rfl
        obtain ⟨hrename', hexpand'⟩ := ht.expand hc
        simp only [Frame.before, settle, hrename, hrename', hexpand', hnil.2]
        rfl

/-- **A stack that is complete before the end of the text is so before a semicolon**, which then
starts a statement behind those that the file has. -/
theorem feed_semicolon {e : Token} {f : Frame} {below : Stack} {root : Node}
    (hk : t.kind = .punct .semicolon) (he : EndOfText e) (h : Resting (f :: below))
    (hdone : feed e (f :: below) = .done root) :
    ∃ next, feed t (f :: below) = .shift next ∧ Stack.outermost next = root.children := by
  have hquiet : Quiet t := by simp [Quiet, Stops, hk, Kind.behindOperand?, Punct.behindOperand?]
  induction below generalizing f with
  | nil =>
    cases h with
    | partly _ h => cases h
    | operators h => cases h
    | @file done =>
      rw [feed_file he] at hdone
      cases hdone
      simp only [feed, Frame.before, Production.begin, stmtFrom, stmtFrame?, hk]
      exact ⟨_, rfl, by simp [Stack.outermost]⟩
  | cons g below ih =>
    cases hb : f.before e with
    | shift frames => simp [feed, hb] at hdone
    | stuck request => simp [feed, hb] at hdone
    | complete node =>
      rw [feed_of_complete hb] at hdone
      rw [feed_of_complete (before_quiet hquiet h (List.cons_ne_nil _ _) hb)]
      exact ih (h.waiting.fill node) hdone

/-! ### A slash between operands -/

theorem begin_slash {p : Production} (hk : t.kind = .punct .slash) (hp : p.Asked)
    (frames : List Frame) : p.begin t ≠ .ok frames := by
  cases p <;> first
    | exact hp.elim
    | simp [Production.begin, exprFrom, typeFrom, stmtFrom, stmtFrame?, requiring, hk,
        Kind.isLiteral, Kind.isSign, Except.map]

/-- No part of a production takes a slash. -/
theorem partly_slash {kind : String} {done : List Node} {todo : List Part}
    (hk : t.kind = .punct .slash) (hr : Regular todo) (frames : List Frame) :
    (Frame.partly kind done todo).before t ≠ .shift frames := by
  intro hs
  cases todo with
  | nil => simp [before_nil] at hs
  | cons part rest =>
    cases part with
    | token k field =>
      simp only [Frame.before, settle, hk, Ne.symm hr.1.ne_slash, if_false] at hs
      cases hs
    | node p field =>
      simp only [Frame.before, settle] at hs
      split at hs
      · rename_i inner hbegin
        exact begin_slash hk hr.1 inner hbegin
      · cases hs
    | hole field => exact hr.elim
    | choice c =>
      obtain ⟨hfile, rfl⟩ := hr
      cases c
      case topLevel => exact absurd rfl hfile
      all_goals
        simp [Frame.before, settle, hk, Choice.rename?, Choice.expand, Choice.behind,
          Production.begin, exprFrom, typeFrom, stmtFrom, stmtFrame?, requiring, Part.mark,
          Part.word, Kind.isLiteral, Kind.isSign, Except.map] at hs

/-- A slash that is taken asks for its right operand. -/
theorem feed_slash {stack next : Stack} (hk : t.kind = .punct .slash) (h : Resting stack)
    (hs : feed t stack = .shift next) :
    ∃ kind done field rest below,
      next = .partly kind done (.node (.expr .multiplicative) field :: rest) :: below := by
  cases stack with
  | nil => cases h
  | cons f below =>
    obtain ⟨f', below', frames, hrest, hb, rfl, -⟩ := feed_shift h hs
    cases hrest with
    | file =>
      have hneof : t.kind ≠ .eof := by simp [hk]
      simp only [Frame.before, settle_topLevel hneof] at hb
      split at hb
      · rename_i inner hbegin
        exact absurd hbegin (begin_slash (p := .stmt) hk trivial inner)
      · cases hb
    | partly hr _ => exact absurd hb (partly_slash hk hr frames)
    | operators _ =>
      simp only [Frame.before, hk, Kind.behindOperand?, Punct.behindOperand?, operation?] at hb
      split at hb
      · cases hb
        exact ⟨_, _, _, _, _, rfl⟩
      · cases hb

/-- An operand starts with no star. -/
theorem exprFrom_not_star {above : Level} {frames : List Frame}
    (hlexeme : Lexical.IsLexeme t.kind t.value) (h : exprFrom above t = .ok frames) :
    t.value.toList.head? ≠ some '*' := by
  have hword : ∀ c, Lexical.isWordPart c = true → c ≠ '*' := by
    rintro c hc rfl
    exact absurd hc (by decide)
  intro hstar
  generalize t.value = s at hlexeme hstar
  unfold exprFrom at h
  cases hk : t.kind with
  | eof | unknown => simp [hk, Kind.isLiteral, Kind.isSign] at h
  | number =>
    rw [hk] at hlexeme
    obtain ⟨c, cs, hs, hc⟩ := Lexical.number_start hlexeme
    rw [hs] at hstar
    exact hword c (by simp [Lexical.isWordPart, hc]) (Option.some.inj hstar)
  | string =>
    rw [hk] at hlexeme
    obtain ⟨body, hs, -⟩ := hlexeme
    rw [hs] at hstar
    cases hstar
  | identifier =>
    rw [hk] at hlexeme
    obtain ⟨c, cs, hs, hc, -⟩ := hlexeme.1
    rw [hs] at hstar
    exact hword c (by simp [Lexical.isWordPart, hc]) (Option.some.inj hstar)
  | punct p =>
    rw [hk] at hlexeme
    obtain rfl : s = p.text := hlexeme
    cases p <;> first
      | exact absurd hstar (by decide)
      | simp [hk, Kind.isLiteral, Kind.isSign] at h
  | keyword k =>
    rw [hk] at hlexeme
    obtain rfl : s = k.text := hlexeme
    cases k <;> exact absurd hstar (by decide)

end

/-- **A text whose tokens are all taken does not end inside a comment.** -/
theorem not_opensComment {source : String} {last : Stack}
    (htakes : Takes (tokens source) [sourceFile] last) :
    ¬ Lexical.OpensComment (tokens source) := by
  rintro ⟨front, t, u, back, htokens, hslash, hstar⟩
  rw [htokens] at htakes
  obtain ⟨stack, hfront⟩ := htakes.front
  obtain ⟨next, hfeed, after, hfeed', -⟩ := htakes.behind hfront
  have hrest := (hfront.resting resting_sourceFile).2
  obtain ⟨kind, done, field, rest, below, rfl⟩ := feed_slash hslash hrest hfeed
  have hu : u ∈ tokens source := by simp [htokens]
  cases hexpr : exprFrom .multiplicative u with
  | error request => simp [feed, Frame.before, settle, Production.begin, hexpr] at hfeed'
  | ok frames => exact exprFrom_not_star (standsIn_of_mem_tokens hu).lexeme hexpr hstar

/-- **The statements of a text in order come first in a text in order that goes on behind it with a
semicolon on a line of its own.** -/
theorem children_seam {front back : String} (h : (parse front).Clean)
    (hwhole : (parse (front ++ "\n;\n" ++ back)).Clean) :
    (∃ semicolon more, tokens (front ++ "\n;\n" ++ back) = tokens front ++ semicolon :: more) ∧
      (parse front).children <+: (parse (front ++ "\n;\n" ++ back)).children := by
  obtain ⟨last, stop, htakes, hdone⟩ := reading_of_clean h
  rcases tokens_seam front back with ⟨semicolon, more, hk, htokens⟩ | hopen
  · refine ⟨⟨semicolon, more, htokens⟩, ?_⟩
    obtain ⟨last', stop', htakes', hdone'⟩ := reading_of_clean hwhole
    rw [htokens] at htakes'
    obtain ⟨next, hfeed, hmore⟩ := htakes'.behind htakes
    have hrest := (htakes.resting resting_sourceFile).2
    cases last with
    | nil => cases hrest
    | cons f below =>
      have hend : EndOfText (.eof stop) := rfl
      obtain ⟨next', hfeed', houter⟩ := feed_semicolon hk hend hrest hdone
      obtain rfl : next = next' := Step.shift.inj (hfeed.symm.trans hfeed')
      have hnext := (feed_resting hrest hfeed).2
      have hlast' := (hmore.resting hnext).2
      rw [← houter]
      refine (hmore.outermost hnext).trans ?_
      cases last' with
      | nil => cases hlast'
      | cons f' below' => exact (feed_done hlast' hdone').2
  · exact absurd hopen (not_opensComment htakes)

end Grammar
end BlockC
