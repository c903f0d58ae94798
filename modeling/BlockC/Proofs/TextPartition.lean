import BlockC.Proofs.Comments
import BlockC.Proofs.Scanning
import BlockC.Proofs.SourceText
import Mathlib.Data.List.DropRight

/-! # Tokens and the text between them

The scanner parts a text into tokens and into what it drops between them.  `Skipped` says what may
be dropped: runs of blanks, comments up to the end of their line, and closed comments.  `Laid` says
that tokens lie in a text one behind the other with only dropped text around them, each at the place
that counting characters gives; the tokens of every text do (`laid_tokenize`).
-/
namespace BlockC

namespace Text

/-- The number of bytes that characters take up. -/
def size (cs : List Char) : Nat :=
  (String.ofList cs).utf8ByteSize

/-- The characters behind the last line feed. -/
def lastLine (cs : List Char) : List Char :=
  cs.rtakeWhile (· != '\n')

@[simp] theorem size_append (cs ds : List Char) : size (cs ++ ds) = size cs + size ds := by
  simp [size]

theorem size_cons (c : Char) (cs : List Char) : size (c :: cs) = c.utf8Size + size cs := by
  simp [size, String.ofList_cons]

theorem size_pos {cs : List Char} (h : cs ≠ []) : 0 < size cs := by
  cases cs with
  | nil => exact absurd rfl h
  | cons c cs =>
    have hc := c.utf8Size_pos
    rw [size_cons]
    omega

end Text

namespace Position

/-- The place behind the given text: the number of line feeds in it, the bytes behind the last of
them, and all its bytes. -/
def behind (cs : List Char) : Position where
  line := cs.count '\n'
  column := Text.size (Text.lastLine cs)
  offset := Text.size cs

theorem behind_concat (cs : List Char) (c : Char) : behind (cs ++ [c]) = (behind cs).step c := by
  by_cases hc : c = '\n'
  · subst hc
    simp [behind, step, Text.lastLine, Text.size]
    rfl
  · simp [behind, step, Text.lastLine, Text.size, hc]

/-- Stepping over a text from its start leads to the place behind it. -/
theorem after_origin (cs : List Char) : origin.after cs = behind cs := by
  induction cs using List.reverseRecOn with
  | nil => rfl
  | append_singleton cs c ih => rw [after_append, ih, behind_concat, after_cons, after_nil]

end Position

namespace Lexical

open Pattern

/-! ### What is dropped between tokens -/

/-- Text that is dropped before what stands behind it: runs of blanks, comments up to the end of
their line, and closed comments. -/
inductive Skipped : List Char → List Char → Prop
  | nil {behind : List Char} : Skipped [] behind
  | blanks {run gap behind : List Char} (ne : run ≠ [])
      (blank : ∀ c ∈ run, Text.isBlank c = true) (more : Skipped gap behind) :
      Skipped (run ++ gap) behind
  | line {body gap behind : List Char} (within : '\n' ∉ body)
      (ends : ∀ c, (gap ++ behind).head? = some c → c = '\n') (more : Skipped gap behind) :
      Skipped ('/' :: '/' :: (body ++ gap)) behind
  | closed {body gap behind : List Char} (first : Unclosed (body ++ ['*']))
      (more : Skipped gap behind) : Skipped ('/' :: '*' :: (body ++ '*' :: '/' :: gap)) behind

theorem blanks_body {w : List Char} (h : Matches blanks w) :
    w ≠ [] ∧ ∀ c ∈ w, Text.isBlank c = true := by
  obtain ⟨first, more, rfl, hfirst, hmore⟩ := matches_seq h
  obtain ⟨c, rfl, hc⟩ := matches_one hfirst
  refine ⟨List.cons_ne_nil _ _, fun d hd => ?_⟩
  rcases List.mem_cons.mp hd with rfl | hd
  · exact hc
  · exact matches_many_one hmore d hd

/-- The rules whose matches are no tokens. -/
theorem mem_of_kind?_eq_none {r : Rule} {w : List Char} (hr : r ∈ rules)
    (h : Lexeme.kind? ⟨some r.action, w⟩ = none) :
    r.pattern = blanks ∨ r.pattern = lineComment ∨ r.pattern = blockComment := by
  rcases List.mem_append.mp hr with hr | hr
  · simp only [List.mem_cons, List.not_mem_nil, or_false] at hr
    rcases hr with rfl | rfl | rfl | rfl | rfl | rfl
    · simp only [Lexeme.kind?] at h
      split at h <;> cases h
    · cases h
    · exact Or.inl rfl
    · cases h
    · exact Or.inr (Or.inl rfl)
    · exact Or.inr (Or.inr rfl)
  · obtain ⟨p, -, rfl⟩ := List.mem_map.mp hr
    cases h

/-- **A lexeme that is no token is dropped text.** -/
theorem skipped_lexeme {c : Char} {cs gap behind : List Char}
    (h : (nextLexeme c cs).1.kind? = none) (hrest : (nextLexeme c cs).2 = gap ++ behind)
    (hgap : Skipped gap behind) : Skipped ((nextLexeme c cs).1.text ++ gap) behind := by
  unfold nextLexeme at h hrest ⊢
  cases hfirst : firstMatch? rules (c :: cs) with
  | none =>
    rw [hfirst] at h
    cases h
  | some m =>
    obtain ⟨r, front, rest⟩ := m
    rw [hfirst] at h hrest
    obtain rfl : rest = gap ++ behind := hrest
    obtain ⟨hr, hsplit, -⟩ := firstMatch?_split hfirst
    obtain ⟨-, hm⟩ := split?_sound hsplit
    show Skipped (front ++ gap) behind
    rcases mem_of_kind?_eq_none hr h with hp | hp | hp
    · obtain ⟨hne, hblank⟩ := blanks_body (hp ▸ hm)
      exact .blanks hne hblank hgap
    · obtain ⟨body, rfl, hbody, hends⟩ := lineComment_body (hp ▸ hsplit)
      exact .line hbody hends hgap
    · obtain ⟨body, rfl, hbody⟩ := blockComment_body (hp ▸ hm)
      simpa using Skipped.closed hbody hgap

end Lexical

/-! ### The layout of tokens -/

open Lexical

/-- Tokens that lie in a text behind another one, in order and with nothing but dropped text around
them; the last of them is the end of the text. -/
inductive Laid : List Char → List Char → List Token → Prop
  | done {before gap : List Char} (skipped : Skipped gap []) :
      Laid before gap [.eof (.behind (before ++ gap))]
  | token {before gap value rest : List Char} {kind : Kind} {ts : List Token}
      (skipped : Skipped gap (value ++ rest)) (taken : value ≠ []) (inside : kind ≠ .eof)
      (more : Laid (before ++ gap ++ value) rest ts) :
      Laid before (gap ++ value ++ rest)
        (⟨kind, String.ofList value,
          ⟨.behind (before ++ gap), .behind (before ++ gap ++ value)⟩⟩ :: ts)

theorem Laid.skip {before : List Char} {c : Char} {cs : List Char} {ts : List Token}
    (h : (nextLexeme c cs).1.kind? = none)
    (hlaid : Laid (before ++ (nextLexeme c cs).1.text) (nextLexeme c cs).2 ts) :
    Laid before ((nextLexeme c cs).1.text ++ (nextLexeme c cs).2) ts := by
  generalize hw : (nextLexeme c cs).1.text = w at hlaid ⊢
  generalize hrest : (nextLexeme c cs).2 = rest at hlaid ⊢
  cases hlaid with
  | done skipped =>
    have hgap := skipped_lexeme h (by rw [hrest, List.append_nil]) skipped
    rw [hw] at hgap
    rw [List.append_assoc]
    exact .done hgap
  | token skipped taken inside more =>
    have hgap := skipped_lexeme h (by rw [hrest, List.append_assoc]) skipped
    rw [hw] at hgap
    rw [← List.append_assoc, ← List.append_assoc]
    simp only [List.append_assoc _ w] at more ⊢
    exact .token hgap taken inside (by simpa using more)

theorem kind_ne_eof_of_isLexeme {kind : Kind} {s : String} (h : IsLexeme kind s) :
    kind ≠ .eof := by
  rintro rfl
  exact h

/-- One lexeme after the other: what the scanner finds lies in the text. -/
theorem laid_lexemes (bound : List Char) : ∀ before rest : List Char, rest.length ≤ bound.length →
    Laid before rest ((lexemes bound ⟨rest, .behind before⟩).filterMap toToken? ++
      [Token.eof (.behind (before ++ rest))]) := by
  induction bound with
  | nil =>
    intro before rest hlen
    obtain rfl : rest = [] := List.length_eq_zero_iff.mp (Nat.le_zero.mp hlen)
    exact .done .nil
  | cons b bound ih =>
    intro before rest hlen
    cases rest with
    | nil => exact .done .nil
    | cons c cs =>
      obtain ⟨hsplit, hne, hkind⟩ := nextLexeme_sound c cs
      have hafter : (Position.behind before).after (nextLexeme c cs).1.text =
          .behind (before ++ (nextLexeme c cs).1.text) := by
        rw [← Position.after_origin, ← Position.after_origin, Position.after_append]
      have hshort : (nextLexeme c cs).2.length ≤ bound.length :=
        Nat.le_trans (length_behind rfl) (Nat.le_of_succ_le_succ hlen)
      have hmore := ih (before ++ (nextLexeme c cs).1.text) (nextLexeme c cs).2 hshort
      rw [List.append_assoc, ← hsplit] at hmore
      simp only [lexemes, hafter]
      cases hk : (nextLexeme c cs).1.kind? with
      | none =>
        have hnone : toToken? ((nextLexeme c cs).1,
            ⟨.behind before, .behind (before ++ (nextLexeme c cs).1.text)⟩) = none := by
          simp [toToken?, hk]
        rw [List.filterMap_cons_none hnone]
        have hskip := hmore.skip hk
        rwa [← hsplit] at hskip
      | some kind =>
        have hsome : toToken? ((nextLexeme c cs).1,
            ⟨.behind before, .behind (before ++ (nextLexeme c cs).1.text)⟩) =
            some ⟨kind, String.ofList (nextLexeme c cs).1.text,
              ⟨.behind before, .behind (before ++ (nextLexeme c cs).1.text)⟩⟩ := by
          simp [toToken?, hk]
        rw [List.filterMap_cons_some hsome, List.cons_append]
        have htoken : Laid before ([] ++ (nextLexeme c cs).1.text ++ (nextLexeme c cs).2) _ :=
          .token .nil hne (kind_ne_eof_of_isLexeme (hkind kind hk)) (by simpa using hmore)
        simpa [← hsplit] using htoken

/-- **The tokens of a text lie in it.** -/
theorem laid_tokenize (source : String) : Laid [] source.toList (tokenize source) := by
  have h := laid_lexemes source.toList [] source.toList (Nat.le_refl _)
  rw [tokenize, endOfText, Position.after_origin]
  exact h

/-! ### Order, places and gaps -/

/-- A place of a text: what counting its characters up to there gives. -/
def Position.IsIn (source : List Char) (p : Position) : Prop :=
  ∃ before rest, source = before ++ rest ∧ p = .behind before

/-- Between two places of a text stands only dropped text. -/
def Gap (source : List Char) (p q : Position) : Prop :=
  ∃ before gap rest, source = before ++ gap ++ rest ∧ Skipped gap rest ∧
    p = .behind before ∧ q = .behind (before ++ gap)

/-- A token whose text stands in the source, between its ends. -/
structure Token.Cut (source : String) (t : Token) : Prop where
  inside : t.kind ≠ .eof
  taken : t.value ≠ ""
  width : t.span.start.offset < t.span.stop.offset
  text : Utf8.slice? source.toUTF8 t.span.start.offset t.span.stop.offset = some t.value.toUTF8

theorem Laid.cut {source : String} {before rest : List Char} {ts : List Token}
    (h : Laid before rest ts) (hsource : source.toList = before ++ rest) :
    ∃ front : List Token, ts = front ++ [Token.eof (.behind source.toList)] ∧
      ∀ t ∈ front, t.Cut source := by
  induction h with
  | done => exact ⟨[], by rw [hsource]; rfl, by simp⟩
  | @token before gap value rest kind ts _ taken inside _ ih =>
    have hplace : source.toList = before ++ gap ++ value ++ rest := by rw [hsource]; simp
    obtain ⟨front, rfl, hfront⟩ := ih hplace
    refine ⟨_ :: front, rfl, fun t ht => ?_⟩
    rcases List.mem_cons.mp ht with rfl | ht
    · refine ⟨inside, ?_, ?_, ?_⟩
      · simpa using taken
      · have := Text.size_pos taken
        simp only [Position.behind, Text.size_append]
        omega
      · have hslice := Utf8.slice?_between hplace
        rwa [Position.after_origin, Position.after_origin] at hslice
    · exact hfront t ht

theorem Laid.gaps {source before rest : List Char} {ts : List Token} (h : Laid before rest ts)
    (hsource : source = before ++ rest) : ∀ start : Position,
      (⟨start, .behind before⟩ :: ts.map Token.span).IsChain fun a b =>
        Gap source a.stop b.start := by
  induction h with
  | @done before gap skipped =>
    intro start
    refine .cons_cons ⟨before, gap, [], ?_, skipped, rfl, rfl⟩ (.singleton _)
    rw [hsource, List.append_nil]
  | @token before gap value rest kind ts skipped taken inside _ ih =>
    intro start
    refine .cons_cons ⟨before, gap, value ++ rest, ?_, skipped, rfl, rfl⟩ (ih ?_ _)
    · simp [hsource]
    · simp [hsource]

/-- One stretch of text ends before the other begins. -/
def Span.Before (s s' : Span) : Prop :=
  s.stop.offset ≤ s'.start.offset

theorem Laid.ordered {before rest : List Char} {ts : List Token} (h : Laid before rest ts) :
    (ts.map Token.span).Pairwise Span.Before ∧
      ∀ t ∈ ts, Text.size before ≤ t.span.start.offset := by
  induction h with
  | done => simp [Token.eof, Position.behind]
  | token skipped taken inside _ ih =>
    obtain ⟨hpair, hstart⟩ := ih
    refine ⟨List.pairwise_cons.mpr ⟨?_, hpair⟩, fun t ht => ?_⟩
    · intro s hs
      obtain ⟨t, ht, rfl⟩ := List.mem_map.mp hs
      exact hstart t ht
    rcases List.mem_cons.mp ht with rfl | ht
    · simp [Position.behind]
    · have := hstart t ht
      simp only [Text.size_append] at this
      omega

theorem Laid.places {source before rest : List Char} {ts : List Token} (h : Laid before rest ts)
    (hsource : source = before ++ rest) :
    ∀ t ∈ ts, t.span.start.IsIn source ∧ t.span.stop.IsIn source := by
  induction h with
  | @done before gap _ =>
    intro t ht
    obtain rfl := List.mem_singleton.mp ht
    have hend : (Position.behind (before ++ gap)).IsIn source :=
      ⟨before ++ gap, [], by simp [hsource], rfl⟩
    exact ⟨hend, hend⟩
  | @token before gap value rest kind ts _ _ _ _ ih =>
    intro t ht
    rcases List.mem_cons.mp ht with rfl | ht
    · exact ⟨⟨before ++ gap, value ++ rest, by simp [hsource], rfl⟩,
        ⟨before ++ gap ++ value, rest, by simp [hsource], rfl⟩⟩
    · exact ih (by simp [hsource]) t ht

/-- **Tokens part a text with exact places.**  The last token, and no other, is the end of the text;
every other one is a non-empty piece of it, cut out by the offsets of its span.  Tokens do not
overlap, what stands before, between and behind them is blank or a comment, and every end of a span
has the line, column and offset that counting the text before it gives. -/
theorem tokens_part_text (source : String) :
    (∃ ts, tokenize source = ts ++ [.eof (.behind source.toList)] ∧ ∀ t ∈ ts, t.Cut source) ∧
      ((tokenize source).map Token.span).Pairwise Span.Before ∧
      ((⟨.origin, .origin⟩ :: (tokenize source).map Token.span).IsChain fun a b =>
        Gap source.toList a.stop b.start) ∧
      ∀ t ∈ tokenize source, t.span.start.IsIn source.toList ∧ t.span.stop.IsIn source.toList := by
  have hlaid := laid_tokenize source
  exact ⟨hlaid.cut rfl, hlaid.ordered.1, hlaid.gaps rfl _, hlaid.places rfl⟩

end BlockC
