import BlockC.Proofs.LineSeam
import Mathlib.Data.Nat.Find

/-! # Where comments and strings end

The patterns for closed comments and for strings are repetitions inside repetitions, but both stand
for a plain search.  Behind `/*`, the comment ends with the first `*/` (`comment_ends`); behind a
quote, the string ends with the first quote on the line that no backslash takes along, which is one
with an even number of backslashes right before it (`string_ends`).  If there is none, the pattern
matches nothing.

Places are counted in bytes from the start of the text.
-/
namespace BlockC

namespace Text

/-- The mark stands behind the first `n` bytes of the text. -/
def StandsAt (mark s : List Char) (n : Nat) : Prop :=
  ∃ before rest, s = before ++ (mark ++ rest) ∧ size before = n

end Text

namespace Lexical

open Pattern

/-! ### The first fit place -/

/-- The place is fit, and none before it is. -/
def IsFirst (Fit : Nat → Prop) (n : Nat) : Prop :=
  Fit n ∧ ∀ m, Fit m → n ≤ m

theorem exists_first {Fit : Nat → Prop} (h : ∃ n, Fit n) : ∃ n, IsFirst Fit n := by
  classical
  exact ⟨Nat.find h, Nat.find_spec h, fun m hm => Nat.find_min' h hm⟩

/-- The pattern matches at the front of the text just if some place is fit, and takes the text up to
the first of them and `width` bytes more. -/
structure EndsAtFirst (p : Pattern) (s : List Char) (Fit : Nat → Prop) (width : Nat) : Prop where
  found : (p.split? s).isSome ↔ ∃ n, Fit n
  ends : ∀ front rest, p.split? s = some (front, rest) →
    s = front ++ rest ∧ ∃ n, IsFirst Fit n ∧ Text.size front = n + width

/-- It is enough that a match has a fit place, and that the first fit place makes a match. -/
theorem endsAtFirst_of_first {p : Pattern} {s : List Char} {Fit : Nat → Prop} {width : Nat}
    (hfit : ∀ front rest, p.split? s = some (front, rest) → ∃ n, Fit n)
    (hfirst : ∀ n, IsFirst Fit n →
      ∃ front rest, p.split? s = some (front, rest) ∧ Text.size front = n + width) :
    EndsAtFirst p s Fit width where
  found := by
    constructor
    · intro hsome
      obtain ⟨⟨front, rest⟩, hsplit⟩ := Option.isSome_iff_exists.mp hsome
      exact hfit front rest hsplit
    · intro h
      obtain ⟨n, hn⟩ := exists_first h
      obtain ⟨front, rest, hsplit, -⟩ := hfirst n hn
      rw [hsplit]
      rfl
  ends := by
    intro front rest hsplit
    obtain ⟨n, hn⟩ := exists_first (hfit front rest hsplit)
    obtain ⟨front', rest', hsplit', hsize⟩ := hfirst n hn
    rw [hsplit] at hsplit'
    obtain ⟨rfl, -⟩ := Prod.mk.inj (Option.some.inj hsplit')
    exact ⟨(split?_sound hsplit).1, n, hn, hsize⟩

/-! ### Comments -/

/-- A star and a slash stand at the place, behind the two characters that open a comment. -/
def IsCommentEnd (s : List Char) (n : Nat) : Prop :=
  2 ≤ n ∧ Text.StandsAt ['*', '/'] s n

theorem size_opening (body : List Char) :
    Text.size ('/' :: '*' :: body) = Text.size body + 2 := by
  rw [Text.size_cons, Text.size_cons, ← Nat.add_assoc, Nat.add_comm]
  rfl

/-- The place that closes a comment lies behind the start of the comment and its inside. -/
theorem isCommentEnd_iff {cs : List Char} {n : Nat} :
    IsCommentEnd ('/' :: '*' :: cs) n ↔
      ∃ body rest, cs = body ++ '*' :: '/' :: rest ∧ n = Text.size body + 2 := by
  constructor
  · rintro ⟨hn, before, rest, heq, rfl⟩
    rcases before with _ | ⟨c, _ | ⟨d, body⟩⟩
    · exact absurd hn (by decide)
    · obtain ⟨rfl, -⟩ := List.cons.inj heq
      exact absurd hn (by decide)
    · simp only [List.cons_append, List.cons.injEq] at heq
      obtain ⟨rfl, rfl, rfl⟩ := heq
      exact ⟨body, rest, rfl, size_opening body⟩
  · rintro ⟨body, rest, rfl, rfl⟩
    exact ⟨Nat.le_add_left 2 _, '/' :: '*' :: body, rest, rfl, size_opening body⟩

/-- No star stands before a slash in front of the first place that closes a comment. -/
theorem unclosed_of_first {body rest : List Char}
    (h : ∀ m, IsCommentEnd ('/' :: '*' :: (body ++ '*' :: '/' :: rest)) m →
      Text.size body + 2 ≤ m) : Unclosed (body ++ ['*']) := by
  refine List.isChain_iff_forall_rel_of_append_cons_cons.mpr ?_
  rintro a b front back heq rfl rfl
  rcases List.eq_nil_or_concat back with rfl | ⟨inner, c, rfl⟩
  · have hlast : body ++ ['*'] = (front ++ ['*']) ++ ['/'] := by simpa using heq
    exact absurd (List.append_inj_right' hlast rfl) (by decide)
  · -- The star and the slash lie within the body, so they close the comment earlier.
    have hlast : body ++ ['*'] = (front ++ '*' :: '/' :: inner) ++ [c] := by simpa using heq
    have hbody := List.append_inj_left' hlast rfl
    have hle := h (Text.size front + 2)
      (isCommentEnd_iff.mpr ⟨front, inner ++ '*' :: '/' :: rest, by simp [hbody], rfl⟩)
    have hpos : 0 < Text.size ('*' :: '/' :: inner) := Text.size_pos (List.cons_ne_nil _ _)
    rw [hbody, Text.size_append] at hle
    omega

/-- **A closed comment ends with the first star before a slash behind its start.** -/
theorem comment_ends (cs : List Char) :
    EndsAtFirst blockComment ('/' :: '*' :: cs) (IsCommentEnd ('/' :: '*' :: cs)) 2 := by
  refine endsAtFirst_of_first (fun front rest hsplit => ?_) fun n hn => ?_
  · obtain ⟨heq, hm⟩ := split?_sound hsplit
    obtain ⟨body, rfl, -⟩ := blockComment_body hm
    exact ⟨_, isCommentEnd_iff.mpr ⟨body, rest, by simpa using heq, rfl⟩⟩
  · obtain ⟨hend, hleast⟩ := hn
    obtain ⟨body, rest, rfl, rfl⟩ := isCommentEnd_iff.mp hend
    have hsplit := split?_closed (matches_blockComment (unclosed_of_first hleast)) rest
    refine ⟨_, rest, by simpa using hsplit, ?_⟩
    rw [size_opening, Text.size_append]
    rfl

/-! ### Escaped characters -/

/-- The number of backslashes right at the end of a text. -/
def backslashes (cs : List Char) : Nat :=
  (cs.rtakeWhile (· == '\\')).length

theorem backslashes_concat (cs : List Char) (c : Char) :
    backslashes (cs ++ [c]) = if c = '\\' then backslashes cs + 1 else 0 := by
  by_cases hc : c = '\\' <;> simp [backslashes, hc]

theorem Quotable.append {u v : List Char} (hu : Quotable u) (hv : Quotable v) :
    Quotable (u ++ v) := by
  induction hu with
  | nil => exact hv
  | plain hquote hslash hfeed _ ih => exact .plain hquote hslash hfeed ih
  | escape hfeed _ ih => exact .escape hfeed ih

theorem Quotable.not_feed {cs : List Char} (h : Quotable cs) : '\n' ∉ cs := by
  induction h with
  | nil => simp
  | plain _ _ hfeed _ ih => simp [Ne.symm hfeed, ih]
  | escape hfeed _ ih => simp [Ne.symm hfeed, ih]

/-- Behind an even number of backslashes, quotable text ends in an even number of them. -/
theorem Quotable.even_append {cs : List Char} (h : Quotable cs) :
    ∀ front : List Char, backslashes front % 2 = 0 → backslashes (front ++ cs) % 2 = 0 := by
  induction h with
  | nil =>
    intro front hfront
    rwa [List.append_nil]
  | @plain c cs _ hslash _ _ ih =>
    intro front _
    have hcount := backslashes_concat front c
    rw [if_neg hslash] at hcount
    rw [List.append_cons]
    exact ih _ (by rw [hcount])
  | @escape c cs _ _ ih =>
    intro front hfront
    have hslash := backslashes_concat front '\\'
    have htaken := backslashes_concat (front ++ ['\\']) c
    rw [if_pos rfl] at hslash
    rw [List.append_cons, List.append_cons]
    refine ih _ ?_
    split at htaken <;> omega

/-- Text on one line whose quotes are all taken along by backslashes is quotable, but for a last
backslash that would take the next character along. -/
theorem quotable_of_escaped {cs : List Char} (hfeed : '\n' ∉ cs)
    (hquotes : ∀ u v, cs = u ++ '"' :: v → backslashes u % 2 = 1) :
    (backslashes cs % 2 = 0 ∧ Quotable cs) ∨
      (backslashes cs % 2 = 1 ∧ ∃ front, cs = front ++ ['\\'] ∧ Quotable front) := by
  induction cs using List.reverseRecOn with
  | nil => exact .inl ⟨rfl, .nil⟩
  | append_singleton cs c ih =>
    simp only [List.mem_append, List.mem_singleton, not_or] at hfeed
    have hcount := backslashes_concat cs c
    rcases ih hfeed.1 fun u v huv => hquotes u (v ++ [c]) (by simp [huv]) with
      ⟨heven, hcs⟩ | ⟨hodd, front, rfl, hfront⟩
    · by_cases hc : c = '\\'
      · subst hc
        rw [if_pos rfl] at hcount
        exact .inr ⟨by omega, cs, rfl, hcs⟩
      · have hquote : c ≠ '"' := by
          rintro rfl
          have := hquotes cs [] rfl
          omega
        rw [if_neg hc] at hcount
        exact .inl ⟨by rw [hcount], hcs.append (.plain hquote hc (Ne.symm hfeed.2) .nil)⟩
    · -- The backslash takes the character along, whatever it is.
      have htaken : Quotable (front ++ ['\\'] ++ [c]) := by
        rw [List.append_assoc]
        exact hfront.append (.escape (Ne.symm hfeed.2) .nil)
      refine .inl ⟨?_, htaken⟩
      split at hcount <;> omega

/-! ### Strings -/

/-- At the place stands a quote on the line of the one at the start, with an even number of
backslashes right before it. -/
def IsStringEnd (s : List Char) (n : Nat) : Prop :=
  ∃ inside rest, s = '"' :: (inside ++ '"' :: rest) ∧ Text.size ('"' :: inside) = n ∧
    backslashes inside % 2 = 0 ∧ '\n' ∉ inside

/-- What stands before the first place that closes a string is quotable. -/
theorem quotable_of_first {inside rest : List Char} (heven : backslashes inside % 2 = 0)
    (hfeed : '\n' ∉ inside)
    (h : ∀ m, IsStringEnd ('"' :: (inside ++ '"' :: rest)) m →
      Text.size ('"' :: inside) ≤ m) : Quotable inside := by
  have hquotes : ∀ u v, inside = u ++ '"' :: v → backslashes u % 2 = 1 := by
    intro u v huv
    by_contra hodd
    -- A quote that is not escaped would close the string earlier.
    have hnot : '\n' ∉ u := fun hmem => hfeed (by simp [huv, hmem])
    have hle := h (Text.size ('"' :: u)) ⟨u, v ++ '"' :: rest, by simp [huv], rfl, by omega, hnot⟩
    have hpos : 0 < Text.size ('"' :: v) := Text.size_pos (List.cons_ne_nil _ _)
    rw [huv, Text.size_cons, Text.size_cons, Text.size_append] at hle
    omega
  rcases quotable_of_escaped hfeed hquotes with ⟨-, hquotable⟩ | ⟨hodd, -⟩
  · exact hquotable
  · omega

/-- **A string ends with the first quote on its line that no backslash takes along.** -/
theorem string_ends (cs : List Char) :
    EndsAtFirst string ('"' :: cs) (IsStringEnd ('"' :: cs)) 1 := by
  refine endsAtFirst_of_first (fun front rest hsplit => ?_) fun n hn => ?_
  · obtain ⟨heq, hm⟩ := split?_sound hsplit
    obtain ⟨body, hfront, hbody⟩ := isQuoted_of_matches hm
    rw [String.toList_ofList] at hfront
    refine ⟨_, body, rest, by simp [heq, hfront], rfl, ?_, hbody.not_feed⟩
    exact hbody.even_append [] rfl
  · obtain ⟨⟨inside, rest, heq, rfl, heven, hfeed⟩, hleast⟩ := hn
    rw [heq] at hleast ⊢
    have hinside := quotable_of_first heven hfeed hleast
    refine ⟨_, rest, split?_quoted hinside rest, ?_⟩
    rw [← List.cons_append, Text.size_append]
    rfl

/-- **Comments and strings end where they should.**  A text that starts with `/*` has a closed
comment at its front just if `*/` stands at byte 2 or later, and the comment ends with the first
one.  A text that starts with a quote has a string at its front just if there is a quote before the
first line feed with an even number of backslashes right before it, and the string ends with the
first one. -/
theorem comments_and_strings_end :
    (∀ s, ['/', '*'] <+: s → EndsAtFirst blockComment s (IsCommentEnd s) 2) ∧
    ∀ s, ['"'] <+: s → EndsAtFirst string s (IsStringEnd s) 1 := by
  constructor
  · rintro s ⟨cs, rfl⟩
    exact comment_ends cs
  · rintro s ⟨cs, rfl⟩
    exact string_ends cs

/-- A comment that does not end with the slash behind its star, and a string with escaped quotes. -/
theorem comments_and_strings_end_sample :
    IsFirst (IsCommentEnd "/*/ **/ */".toList) 5 ∧
      IsFirst (IsStringEnd "\"é\\\\\\\" \\\\\" \"".toList) 10 := by
  constructor
  · obtain ⟨-, n, hn, hsize⟩ := (comments_and_strings_end.1 "/*/ **/ */".toList (by decide)).ends
      "/*/ **/".toList " */".toList (by decide)
    obtain rfl : n = 5 := Nat.add_right_cancel (hsize.symm.trans rfl)
    exact hn
  · obtain ⟨-, n, hn, hsize⟩ :=
      (comments_and_strings_end.2 "\"é\\\\\\\" \\\\\" \"".toList (by decide)).ends
      "\"é\\\\\\\" \\\\\"".toList " \"".toList (by decide)
    obtain rfl : n = 10 := Nat.add_right_cancel (hsize.symm.trans rfl)
    exact hn

end Lexical
end BlockC
