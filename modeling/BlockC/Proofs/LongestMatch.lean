import BlockC.Proofs.DiagnosticPlaces
import Mathlib.Data.Nat.Find

/-! # The longest match

The table of rules is tried in order and the first rule that matches decides.  Each rule takes the
longest text at the front that its pattern describes (`greedy_of_mem`), although its pattern is
explored from left to right.  Wherever two rules match, the one that stands first in the table takes
more (`rules_outrank`): their texts begin with characters of different families, or one is a comment
or a piece of punctuation that goes on with the other.  So what the scanner takes is the longest
text that any rule describes (`scanning_takes_longest`).
-/
namespace BlockC
namespace Pattern

section
variable {p : Pattern} {s front : List Char}

/-- Where a pattern describes a text at the front, it describes a longest one. -/
theorem exists_longest {v : List Char} (hv : v <+: s) (h : Matches p v) :
    ∃ front, IsLongest p s front := by
  classical
  have htake : ∀ {u : List Char}, u <+: s → s.take u.length = u :=
    fun hu => (List.prefix_iff_eq_take.mp hu).symm
  have hbound : ∀ {u : List Char}, u <+: s → Matches p u →
      u.length ≤ Nat.findGreatest (fun n => Matches p (s.take n)) s.length := fun hu hm =>
    Nat.le_findGreatest hu.length_le ((htake hu).symm ▸ hm)
  refine ⟨s.take (Nat.findGreatest (fun n => Matches p (s.take n)) s.length),
    List.take_prefix _ _, ?_, fun u hu hm => ?_⟩
  · exact Nat.findGreatest_spec (P := fun n => Matches p (s.take n)) hv.length_le
      ((htake hv).symm ▸ h)
  · rw [List.length_take, Nat.min_eq_left (Nat.findGreatest_le _)]
    exact hbound hu hm

/-- Behind the longest text, no further character goes on with it. -/
theorem IsLongest.ends {c : Char} {more : List Char} (h : IsLongest p (front ++ c :: more) front) :
    ¬ Matches p (front ++ [c]) := by
  intro hm
  have hle := h.longest (front ++ [c]) ⟨more, by simp⟩ hm
  rw [List.length_append, List.length_singleton] at hle
  omega

end

/-- A pattern that takes the longest text it describes. -/
def Greedy (p : Pattern) : Prop :=
  ∀ front rest, IsLongest p (front ++ rest) front → p.split? (front ++ rest) = some (front, rest)

section
variable {p : Pattern} {s front rest : List Char}

/-- What a greedy pattern takes is the longest text it describes. -/
theorem Greedy.longest (hp : p.Greedy) (h : p.split? s = some (front, rest)) :
    IsLongest p s front := by
  obtain ⟨rfl, hm⟩ := split?_sound h
  obtain ⟨w, hw⟩ := exists_longest (List.prefix_append front rest) hm
  obtain ⟨back, hback⟩ := hw.stands
  have hsplit := hp w back (hback ▸ hw)
  rw [hback, h] at hsplit
  obtain ⟨rfl, -⟩ := Prod.mk.inj (Option.some.inj hsplit)
  exact hw

/-- A greedy pattern takes something wherever it describes something. -/
theorem Greedy.isSome (hp : p.Greedy) {v : List Char} (hv : v <+: s) (h : Matches p v) :
    (p.split? s).isSome := by
  obtain ⟨w, hw⟩ := exists_longest hv h
  obtain ⟨back, rfl⟩ := hw.stands
  rw [hp w back hw]
  rfl

/-- A pattern that describes no two texts of which one goes on with the other. -/
theorem greedy_of_unique (hp : p.productive = true)
    (h : ∀ w w', Matches p w → Matches p w' → w <+: w' → w = w') : p.Greedy := by
  intro front rest hlongest
  obtain ⟨⟨w, back⟩, hsplit⟩ := Option.isSome_iff_exists.mp (split?_isSome hp hlongest.fits rest)
  obtain ⟨heq, hw⟩ := split?_sound hsplit
  have hle := hlongest.longest w ⟨back, heq.symm⟩ hw
  have hfront := List.prefix_of_prefix_length_le ⟨back, heq.symm⟩ hlongest.stands hle
  obtain rfl := h w front hw hlongest.fits hfront
  rw [hsplit, List.append_cancel_left heq]

end

end Pattern

namespace Lexical

open Pattern

/-! ### Each rule takes the longest text -/

/-- A character of one class and a run of another. -/
theorem greedy_runs (start part : Char → Bool) : (seq (one start) (many (one part))).Greedy := by
  intro front rest h
  obtain ⟨u, cs, rfl, hu, hcs⟩ := matches_seq h.fits
  obtain ⟨c, rfl, hc⟩ := matches_one hu
  have hall := matches_many_one hcs
  refine split?_runs hc hall fun d hd => ?_
  obtain ⟨more, rfl⟩ := List.head?_eq_some_iff.mp hd
  cases hpart : part d with
  | false => rfl
  | true =>
    have hlonger : Matches (many (one part)) (cs ++ [d]) :=
      matches_of_all (List.forall_mem_append.mpr ⟨hall, by simpa using hpart⟩)
    have hmore : Matches (seq (one start) (many (one part))) ([c] ++ (cs ++ [d])) :=
      .seq (.one hc) hlonger
    rw [← List.append_assoc] at hmore
    exact absurd hmore h.ends

theorem greedy_string : string.Greedy := by
  intro front rest h
  obtain ⟨body, hfront, hbody⟩ := isQuoted_of_matches h.fits
  rw [String.toList_ofList] at hfront
  rw [hfront]
  simpa using split?_quoted hbody rest

theorem greedy_lineComment : lineComment.Greedy := by
  intro front rest h
  obtain ⟨⟨w, back⟩, hsplit⟩ := Option.isSome_iff_exists.mp
    (split?_isSome (by decide) h.fits rest)
  obtain ⟨body, rfl, -, hends⟩ := lineComment_body hsplit
  obtain ⟨heq, hw⟩ := split?_sound hsplit
  have hle := h.longest _ ⟨back, heq.symm⟩ hw
  obtain ⟨more, rfl⟩ := List.prefix_of_prefix_length_le ⟨back, heq.symm⟩ h.stands hle
  rw [List.append_assoc, List.append_cancel_left_eq] at heq
  cases more with
  | nil =>
    obtain rfl : rest = back := heq
    simpa using hsplit
  | cons d more =>
    -- A longer comment would hold the line feed that this one ends at.
    obtain rfl := hends d (by rw [← heq]; rfl)
    have havoids : lineComment.avoids '\n' = true := by decide
    exact absurd (by simp) (not_mem_of_avoids havoids h.fits)

theorem greedy_punct (p : Punct) : (Rule.ofPunct p).pattern.Greedy := by
  intro front rest h
  obtain rfl : front = p.text.toList := by
    rw [← eq_text_of_matches h.fits, String.toList_ofList]
  exact split?_punct

/-- **Each rule takes the longest text that its pattern describes.** -/
theorem greedy_of_mem {r : Rule} (h : r ∈ rules) : r.pattern.Greedy := by
  rcases List.mem_append.mp h with h | h
  · simp only [List.mem_cons, List.not_mem_nil, or_false] at h
    rcases h with rfl | rfl | rfl | rfl | rfl | rfl
    · exact greedy_runs isWordStart isWordPart
    · exact fun _ _ => split?_longest_number
    · exact greedy_runs Text.isBlank Text.isBlank
    · exact greedy_string
    · exact greedy_lineComment
    · exact greedy_of_unique (by decide) fun _ _ => closed_unique
  · obtain ⟨p, -, rfl⟩ := List.mem_map.mp h
    exact greedy_punct p

/-! ### Rules that stand first take more -/

/-- Wherever both rules match, the first one takes more. -/
def Rule.Outranks (r q : Rule) : Prop :=
  ∀ s w v, w <+: s → v <+: s → Matches r.pattern w → Matches q.pattern v → v.length < w.length

/-- What a text can be that begins with a character. -/
inductive Family where
  | word | number | blanks | string
  /-- A comment, or a piece of punctuation. -/
  | mark
deriving DecidableEq, Repr

def Family.of (c : Char) : Family :=
  if isWordStart c then .word else if isDigit c then .number else if Text.isBlank c then .blanks
  else if c = '"' then .string else .mark

/-- All that a rule describes begins with a character of one family. -/
def Rule.InFamily (r : Rule) (f : Family) : Prop :=
  ∀ w, Matches r.pattern w → ∃ c cs, w = c :: cs ∧ Family.of c = f

theorem outranks_of_family {r q : Rule} {f g : Family} (hr : r.InFamily f)
    (hq : q.InFamily g) (h : f ≠ g) : r.Outranks q := by
  intro s w v hw hv hmw hmv
  obtain ⟨c, cs, rfl, hc⟩ := hr w hmw
  obtain ⟨d, ds, rfl, hd⟩ := hq v hmv
  obtain ⟨more, rfl⟩ := hw
  obtain ⟨rfl, -⟩ := List.cons_prefix_cons.mp hv
  exact absurd (hc.symm.trans hd) h

theorem word_inFamily : Rule.InFamily ⟨word, .word⟩ .word := by
  intro w hw
  obtain ⟨c, cs, rfl, hc, -⟩ := isWord_of_matches hw
  exact ⟨c, cs, rfl, by simp [Family.of, hc]⟩

theorem number_inFamily : Rule.InFamily ⟨number, .token .number⟩ .number := by
  intro w hw
  obtain ⟨c, cs, rfl, hc⟩ := number_start hw
  exact ⟨c, cs, rfl, by simp [Family.of, hc, not_isWordStart_of_isDigit hc]⟩

theorem blanks_inFamily : Rule.InFamily ⟨blanks, .skip⟩ .blanks := by
  intro w hw
  obtain ⟨hne, hblank⟩ := blanks_body hw
  obtain ⟨c, cs, rfl⟩ := List.exists_cons_of_ne_nil hne
  have hc := hblank c (by simp)
  have hpart : isWordPart c = false := by
    cases h : isWordPart c with
    | false => rfl
    | true => exact absurd hc (by simp [not_isBlank_of_isWordPart h])
  obtain ⟨hstart, hdigit⟩ := Bool.or_eq_false_iff.mp hpart
  exact ⟨c, cs, rfl, by simp [Family.of, hstart, hdigit, hc]⟩

theorem string_inFamily : Rule.InFamily ⟨string, .token .string⟩ .string := by
  intro w hw
  obtain ⟨body, hbody, -⟩ := isQuoted_of_matches hw
  rw [String.toList_ofList] at hbody
  exact ⟨'"', body ++ ['"'], hbody, by decide⟩

/-- A comment begins with a slash and something that no piece of punctuation has there. -/
def Rule.IsComment (r : Rule) : Prop :=
  ∃ mark, mark ≠ '=' ∧ ∀ w, Matches r.pattern w → ∃ cs, w = '/' :: mark :: cs

theorem lineComment_isComment : Rule.IsComment ⟨lineComment, .skip⟩ := by
  refine ⟨'/', by decide, fun w hw => ?_⟩
  obtain ⟨slash, v, rfl, hslash, hv⟩ := matches_seq hw
  obtain ⟨again, body, rfl, hagain, -⟩ := matches_seq hv
  exact ⟨body, by rw [matches_char hslash, matches_char hagain]; rfl⟩

theorem blockComment_isComment : Rule.IsComment ⟨blockComment, .skip⟩ := by
  refine ⟨'*', by decide, fun w hw => ?_⟩
  obtain ⟨body, rfl, -⟩ := blockComment_body hw
  exact ⟨_, rfl⟩

theorem Rule.IsComment.inFamily {r : Rule} (h : r.IsComment) : r.InFamily .mark := by
  obtain ⟨mark, -, hmark⟩ := h
  intro w hw
  obtain ⟨cs, rfl⟩ := hmark w hw
  exact ⟨'/', mark :: cs, rfl, by decide⟩

theorem punct_inFamily (p : Punct) : (Rule.ofPunct p).InFamily .mark := by
  intro w hw
  have htext : w = p.text.toList := by rw [← eq_text_of_matches hw, String.toList_ofList]
  cases hp : p.text.toList with
  | nil => exact absurd hp (by cases p <;> decide)
  | cons c cs =>
    obtain ⟨hstart, hdigit, hblank, hquote, -⟩ := punct_start hp
    exact ⟨c, cs, htext.trans hp, by simp [Family.of, hstart, hdigit, hblank, hquote]⟩

/-- Where a comment stands, no piece of punctuation is longer than its slash. -/
theorem comment_outranks_punct {r : Rule} (h : r.IsComment) (p : Punct) :
    r.Outranks (Rule.ofPunct p) := by
  intro s w v hw hv hmw hmv
  obtain ⟨mark, hne, hmark⟩ := h
  obtain ⟨cs, rfl⟩ := hmark w hmw
  obtain ⟨more, rfl⟩ := hw
  have htext : v = p.text.toList := by rw [← eq_text_of_matches hmv, String.toList_ofList]
  cases v with
  | nil => simp
  | cons c v =>
    obtain ⟨rfl, htail⟩ := List.cons_prefix_cons.mp hv
    rcases (punct_start htext.symm).2.2.2.2 rfl with ⟨hslash, -⟩ | heq
    · rw [htext, hslash]
      simp
    · -- The piece would go on with an equals sign where the comment has its mark.
      cases v with
      | nil => cases heq
      | cons d v =>
        obtain rfl : d = '=' := by simpa using heq
        exact absurd (List.cons_prefix_cons.mp htail).1.symm hne

theorem lineComment_outranks_blockComment :
    Rule.Outranks ⟨lineComment, .skip⟩ ⟨blockComment, .skip⟩ := by
  intro s w v hw hv hmw hmv
  obtain ⟨slash, u, rfl, hslash, hu⟩ := matches_seq hmw
  obtain ⟨again, body, rfl, hagain, -⟩ := matches_seq hu
  obtain ⟨body', rfl, -⟩ := blockComment_body hmv
  rw [matches_char hslash, matches_char hagain] at hw
  obtain ⟨more, rfl⟩ := hw
  have hmark := (List.cons_prefix_cons.mp (List.cons_prefix_cons.mp hv).2).1
  exact absurd hmark (by decide)

/-- Of two pieces of punctuation the one that goes on with the other is tried first. -/
theorem punct_outrank : (Punct.all.map Rule.ofPunct).Pairwise Rule.Outranks := by
  have horder : Punct.all.Pairwise fun p q => p.text.toList <+: q.text.toList → False := by
    decide +kernel
  refine List.pairwise_map.mpr (horder.imp fun {p q} hpq => ?_)
  intro s w v hw hv hmw hmv
  obtain rfl : w = p.text.toList := by rw [← eq_text_of_matches hmw, String.toList_ofList]
  obtain rfl : v = q.text.toList := by rw [← eq_text_of_matches hmv, String.toList_ofList]
  refine Nat.lt_of_not_le fun hle => hpq ?_
  exact List.prefix_of_prefix_length_le hw hv hle

/-- **Wherever two rules of the table match, the one that stands first takes more.** -/
theorem rules_outrank : rules.Pairwise Rule.Outranks := by
  have hcomments : ∀ r ∈ [Rule.mk lineComment .skip, ⟨blockComment, .skip⟩], r.IsComment := by
    simpa using ⟨lineComment_isComment, blockComment_isComment⟩
  have hrest : ∀ r ∈ [Rule.mk lineComment .skip, ⟨blockComment, .skip⟩] ++
      Punct.all.map Rule.ofPunct, r.InFamily .mark := by
    intro r hr
    rcases List.mem_append.mp hr with hr | hr
    · exact (hcomments r hr).inFamily
    · obtain ⟨p, -, rfl⟩ := List.mem_map.mp hr
      exact punct_inFamily p
  have hfirst : ∀ {r : Rule} {f : Family}, r.InFamily f → f ≠ .mark →
      ∀ q ∈ [Rule.mk lineComment .skip, ⟨blockComment, .skip⟩] ++ Punct.all.map Rule.ofPunct,
        r.Outranks q := fun hr hf q hq => outranks_of_family hr (hrest q hq) hf
  have hlast : ([Rule.mk lineComment .skip, ⟨blockComment, .skip⟩] ++
      Punct.all.map Rule.ofPunct).Pairwise Rule.Outranks := by
    refine List.pairwise_append.mpr ⟨?_, punct_outrank, fun r hr q hq => ?_⟩
    · simpa using lineComment_outranks_blockComment
    · obtain ⟨p, -, rfl⟩ := List.mem_map.mp hq
      exact comment_outranks_punct (hcomments r hr) p
  have hword := @outranks_of_family ⟨word, .word⟩
  have hnumber := @outranks_of_family ⟨number, .token .number⟩
  refine .cons ?_ (.cons ?_ (.cons ?_ (.cons (hfirst string_inFamily (by decide)) hlast)))
  · refine List.forall_mem_cons.mpr ⟨hword word_inFamily number_inFamily (by decide), ?_⟩
    refine List.forall_mem_cons.mpr ⟨hword word_inFamily blanks_inFamily (by decide), ?_⟩
    exact List.forall_mem_cons.mpr
      ⟨hword word_inFamily string_inFamily (by decide), hfirst word_inFamily (by decide)⟩
  · refine List.forall_mem_cons.mpr ⟨hnumber number_inFamily blanks_inFamily (by decide), ?_⟩
    exact List.forall_mem_cons.mpr
      ⟨hnumber number_inFamily string_inFamily (by decide), hfirst number_inFamily (by decide)⟩
  · exact List.forall_mem_cons.mpr
      ⟨outranks_of_family blanks_inFamily string_inFamily (by decide),
        hfirst blanks_inFamily (by decide)⟩

/-! ### What the scanner takes -/

theorem ne_nil_of_rule {r : Rule} {w : List Char} (hr : r ∈ rules) (h : Matches r.pattern w) :
    w ≠ [] := by
  have hfamily : ∃ f, r.InFamily f := by
    rcases List.mem_append.mp hr with hr | hr
    · simp only [List.mem_cons, List.not_mem_nil, or_false] at hr
      rcases hr with rfl | rfl | rfl | rfl | rfl | rfl
      · exact ⟨_, word_inFamily⟩
      · exact ⟨_, number_inFamily⟩
      · exact ⟨_, blanks_inFamily⟩
      · exact ⟨_, string_inFamily⟩
      · exact ⟨_, lineComment_isComment.inFamily⟩
      · exact ⟨_, blockComment_isComment.inFamily⟩
    · obtain ⟨p, -, rfl⟩ := List.mem_map.mp hr
      exact ⟨_, punct_inFamily p⟩
  obtain ⟨f, hf⟩ := hfamily
  obtain ⟨c, cs, rfl, -⟩ := hf w h
  exact List.cons_ne_nil c cs

/-- A rule decides what is taken from a text: no rule before it matches, those behind it take less,
and no rule describes more of the text than it takes. -/
structure Rule.Decides (r : Rule) (s front rest : List Char) : Prop where
  takes : r.pattern.split? s = some (front, rest)
  first : ∃ before behind, rules = before ++ r :: behind ∧
    (∀ q ∈ before, q.pattern.split? s = none) ∧
    ∀ q ∈ behind, ∀ v z, q.pattern.split? s = some (v, z) → v.length < front.length
  longest : ∀ q ∈ rules, ∀ v, v <+: s → Matches q.pattern v → v.length ≤ front.length

/-- The first rule that matches decides. -/
theorem decides_of_first {r : Rule} {s front rest : List Char} {before behind : List Rule}
    (hrules : rules = before ++ r :: behind) (hbefore : ∀ q ∈ before, q.pattern.split? s = none)
    (h : r.pattern.split? s = some (front, rest)) : r.Decides s front rest := by
  have hr : r ∈ rules := by simp [hrules]
  obtain ⟨rfl, hm⟩ := split?_sound h
  have hstands := List.prefix_append front rest
  have hrank := rules_outrank
  rw [hrules] at hrank
  have hbehind : ∀ q ∈ behind, r.Outranks q :=
    (List.pairwise_cons.mp (List.pairwise_append.mp hrank).2.1).1
  refine ⟨h, ⟨before, behind, hrules, hbefore, fun q hq v z hsplit => ?_⟩, fun q hq v hv hmv => ?_⟩
  · obtain ⟨heq, hmv⟩ := split?_sound hsplit
    exact hbehind q hq _ front v hstands ⟨z, heq.symm⟩ hm hmv
  · have hqr : q ∈ before ++ r :: behind := hrules ▸ hq
    rcases List.mem_append.mp hqr with hin | hin
    · -- A rule before it that describes something would match.
      have hsome := (greedy_of_mem hq).isSome hv hmv
      rw [hbefore q hin] at hsome
      cases hsome
    rcases List.mem_cons.mp hin with rfl | hin
    · exact ((greedy_of_mem hr).longest h).longest v hv hmv
    · exact Nat.le_of_lt (hbehind q hin _ front v hstands hv hm hmv)

/-- The first rule of a table that matches is found, or none matches. -/
theorem firstMatch?_cases (table : List Rule) (htable : table ⊆ rules) (s : List Char) :
    (∃ (before : List Rule) (r : Rule) (behind : List Rule) (front rest : List Char),
      table = before ++ r :: behind ∧
      (∀ q ∈ before, q.pattern.split? s = none) ∧ r.pattern.split? s = some (front, rest) ∧
      firstMatch? table s = some (r, front, rest)) ∨
    ((∀ r ∈ table, r.pattern.split? s = none) ∧ firstMatch? table s = none) := by
  induction table with
  | nil => exact Or.inr ⟨by simp, rfl⟩
  | cons r table ih =>
    obtain ⟨hr, htable⟩ := List.cons_subset.mp htable
    cases hs : r.pattern.split? s with
    | some cut =>
      obtain ⟨front, rest⟩ := cut
      obtain ⟨c, front, rfl⟩ := List.exists_cons_of_ne_nil (ne_nil_of_rule hr (split?_sound hs).2)
      exact Or.inl ⟨[], r, table, _, rest, rfl, by simp, hs, firstMatch?_take hs⟩
    | none =>
      rw [firstMatch?_skip hs]
      rcases ih htable with
        ⟨before, q, behind, front, rest, rfl, hbefore, hq, hfirst⟩ | ⟨hall, hnone⟩
      · exact Or.inl ⟨r :: before, q, behind, front, rest, rfl,
          List.forall_mem_cons.mpr ⟨hs, hbefore⟩, hq, hfirst⟩
      · exact Or.inr ⟨List.forall_mem_cons.mpr ⟨hs, hall⟩, hnone⟩

/-- A rule decides what the next lexeme is, or no rule matches. -/
theorem nextLexeme_cases (c : Char) (cs : List Char) :
    (∃ (r : Rule) (front rest : List Char), r.Decides (c :: cs) front rest ∧
      nextLexeme c cs = (⟨some r.action, front⟩, rest)) ∨
    ((∀ r ∈ rules, r.pattern.split? (c :: cs) = none) ∧ nextLexeme c cs = (⟨none, [c]⟩, cs)) := by
  rcases firstMatch?_cases rules (List.Subset.refl _) (c :: cs) with
    ⟨before, r, behind, front, rest, hrules, hbefore, hr, hfirst⟩ | ⟨hall, hfirst⟩
  · refine Or.inl ⟨r, front, rest, decides_of_first hrules hbefore hr, ?_⟩
    rw [nextLexeme, hfirst]
  · refine Or.inr ⟨hall, ?_⟩
    rw [nextLexeme, hfirst]

/-- Where no rule matches, one character is taken. -/
theorem nextLexeme_of_none {c : Char} {cs : List Char}
    (h : ∀ r ∈ rules, r.pattern.split? (c :: cs) = none) :
    nextLexeme c cs = (⟨none, [c]⟩, cs) := by
  rcases nextLexeme_cases c cs with ⟨r, front, rest, hdecides, -⟩ | ⟨-, hnext⟩
  · obtain ⟨_, _, hrules, -⟩ := hdecides.first
    have hnone := h r (by simp [hrules])
    rw [hdecides.takes] at hnone
    cases hnone
  · exact hnext

/-- No rule makes an unknown token. -/
theorem kind?_ne_unknown {r : Rule} {w : List Char} (hr : r ∈ rules) :
    Lexeme.kind? ⟨some r.action, w⟩ ≠ some .unknown := by
  rcases List.mem_append.mp hr with hr | hr
  · simp only [List.mem_cons, List.not_mem_nil, or_false] at hr
    rcases hr with rfl | rfl | rfl | rfl | rfl | rfl <;> simp only [Lexeme.kind?]
    · split <;> simp
    all_goals simp
  · obtain ⟨p, -, rfl⟩ := List.mem_map.mp hr
    simp [Lexeme.kind?, Rule.ofPunct]

/-- An unknown token is one character, where no rule matches. -/
theorem unknown_token {source : String} {t : Token} (ht : t ∈ tokens source)
    (hk : t.kind = .unknown) : ∃ before c cs, source.toList = before ++ c :: cs ∧
      t.value.toList = [c] ∧ t.span.start = .behind before ∧
      ∀ r ∈ rules, r.pattern.split? (c :: cs) = none := by
  obtain ⟨before, c, cs, hsource, hkind, hvalue, hspan⟩ := nextLexeme_of_token ht
  rw [hk] at hkind
  rcases nextLexeme_cases c cs with ⟨r, front, rest, hdecides, hnext⟩ | ⟨hnone, hnext⟩
  · obtain ⟨_, _, hrules, -⟩ := hdecides.first
    rw [hnext] at hkind
    exact absurd hkind (kind?_ne_unknown (by simp [hrules]))
  · rw [hnext] at hvalue
    exact ⟨before, c, cs, hsource, by simp [hvalue], by rw [hspan], hnone⟩

theorem ofText?_text (k : Keyword) : Keyword.ofText? k.text = some k := by
  cases k <;> rfl

/-- The text of a token is a reserved word just if the token is that word. -/
theorem keyword_iff {kind : Kind} {s : String} (h : IsLexeme kind s) (k : Keyword) :
    kind = .keyword k ↔ s = k.text := by
  constructor
  · rintro rfl
    exact h
  rintro rfl
  obtain ⟨c, cs, hs, hc, hcs⟩ :
      ∃ c cs, k.text.toList = c :: cs ∧ isWordStart c = true ∧ cs ≠ [] := by
    cases k <;> exact ⟨_, _, rfl, by decide, by decide⟩
  have hother : isWordStart c = false → kind = .keyword k := fun hnot => by
    rw [hc] at hnot
    cases hnot
  cases kind with
  | eof => exact h.elim
  | unknown =>
    obtain ⟨d, hd⟩ := h
    rw [hs] at hd
    exact absurd (List.cons.inj hd).2 hcs
  | number =>
    obtain ⟨d, ds, hd, hdigit⟩ := number_start h
    obtain ⟨rfl, -⟩ := List.cons.inj (hs.symm.trans hd)
    exact hother (not_isWordStart_of_isDigit hdigit)
  | string =>
    obtain ⟨body, hd, -⟩ := h
    obtain ⟨rfl, -⟩ := List.cons.inj (hs.symm.trans hd)
    exact hother (by decide)
  | identifier =>
    obtain ⟨-, hnone⟩ := h
    rw [ofText?_text] at hnone
    cases hnone
  | punct p =>
    have htext : k.text = p.text := h
    exact hother (punct_start (htext ▸ hs)).1
  | keyword k' =>
    have hsome := ofText?_text k'
    rw [← show k.text = k'.text from h, ofText?_text] at hsome
    rw [Option.some.inj hsome]

/-- **The scanner takes the longest text that any rule describes.**  Wherever some rule matches, the
first one that does decides the next lexeme: it takes more than every other rule.  The lexemes of a
text are found in this way, one at each place.  A token is a reserved word just if its whole text is
one, and a token is unknown only where no rule matches. -/
theorem scanning_takes_longest :
    (∀ (c : Char) (cs : List Char), (∃ r ∈ rules, (r.pattern.split? (c :: cs)).isSome) →
      ∃ (r : Rule) (front rest : List Char), r.Decides (c :: cs) front rest ∧
        nextLexeme c cs = (⟨some r.action, front⟩, rest)) ∧
    (∀ source : String, ∀ item ∈ lexemes source.toList (.ofString source),
      ∃ before c cs, source.toList = before ++ c :: cs ∧ item.2.start = .behind before ∧
        item.1 = (nextLexeme c cs).1) ∧
    ∀ source : String, ∀ t ∈ tokens source,
      (∀ k : Keyword, t.kind = .keyword k ↔ t.value = k.text) ∧
      (t.kind = .unknown → ∃ before rest, source.toList = before ++ (t.value.toList ++ rest) ∧
        t.span.start = .behind before ∧
        ∀ r ∈ rules, r.pattern.split? (t.value.toList ++ rest) = none) := by
  refine ⟨fun c cs hsome => ?_, fun source item hitem => ?_, fun source t ht => ⟨?_, fun hk => ?_⟩⟩
  · rcases nextLexeme_cases c cs with hdecides | ⟨hnone, -⟩
    · exact hdecides
    · obtain ⟨r, hr, hmatch⟩ := hsome
      rw [hnone r hr] at hmatch
      cases hmatch
  · have hfrom : item ∈ lexemes source.toList ⟨source.toList, .behind []⟩ := hitem
    obtain ⟨before, c, cs, hsource, hnext, hspan⟩ := nextLexeme_of_mem hfrom
    exact ⟨before, c, cs, hsource, by rw [hspan]; rfl, hnext⟩
  · exact keyword_iff (standsIn_of_mem_tokens ht).lexeme
  · obtain ⟨before, c, cs, hsource, hvalue, hstart, hnone⟩ := unknown_token ht hk
    rw [hvalue]
    exact ⟨before, cs, hsource, hstart, hnone⟩

/-- An arrow is taken where a dash matches as well. -/
theorem scanning_takes_longest_sample :
    (∃ r ∈ rules, r.pattern.split? ['-', '>', '='] = some (['-'], ['>', '='])) ∧
      ∃ r : Rule, r.Decides ['-', '>', '='] ['-', '>'] ['='] := by
  have hdash : (Rule.ofPunct .dash).pattern.split? ['-', '>', '='] = some (['-'], ['>', '=']) := by
    decide
  have hmem : Rule.ofPunct .dash ∈ rules :=
    List.mem_append_right _ (List.mem_map_of_mem (Punct.mem_all .dash))
  refine ⟨⟨_, hmem, hdash⟩, ?_⟩
  obtain ⟨r, front, rest, hdecides, hnext⟩ :=
    scanning_takes_longest.1 '-' ['>', '='] ⟨_, hmem, by rw [hdash]; rfl⟩
  have hfound : nextLexeme '-' ['>', '='] =
      (⟨some (.token (.punct .arrow)), ['-', '>']⟩, ['=']) := by
    decide +kernel
  obtain ⟨hlexeme, rfl⟩ := Prod.mk.inj (hfound.symm.trans hnext)
  obtain ⟨-, rfl⟩ := Lexeme.mk.inj hlexeme
  exact ⟨r, hdecides⟩

end Lexical
end BlockC
