import BlockC.Proofs.Lexemes
import Mathlib.Data.List.Chain

/-! # Comments

Which texts the two rules for comments take.  A comment on a line ends where the line does
(`lineComment_body`); a closed comment ends with the first star that stands before a slash, however
many stars it holds (`blockComment_body`), and every text that ends so is one
(`matches_blockComment`).
-/
namespace BlockC
namespace Lexical

open Pattern

/-- No star stands right before a slash. -/
def Unclosed (cs : List Char) : Prop :=
  cs.IsChain fun a b => a = '*' → b ≠ '/'

theorem unclosed_of_not_star {cs : List Char} (h : '*' ∉ cs) : Unclosed cs := by
  refine List.isChain_iff_forall_rel_of_append_cons_cons.mpr fun {a b l r} heq ha => ?_
  subst ha
  exact absurd (by simp [heq]) h

theorem unclosed_of_not_slash {cs : List Char} (h : '/' ∉ cs) : Unclosed cs := by
  refine List.isChain_iff_forall_rel_of_append_cons_cons.mpr fun {a b l r} heq _ hb => ?_
  subst hb
  exact absurd (by simp [heq]) h

/-- Text of a comment that the next slash closes. -/
structure AtStar (cs : List Char) : Prop where
  unclosed : Unclosed cs
  star : cs.getLast? = some '*'

/-- A run of stars behind text that has none. -/
theorem atStar_run {cs run : List Char} (hcs : '*' ∉ cs)
    (hrun : Matches (many1 (char '*')) run) : AtStar (cs ++ run) := by
  obtain ⟨first, more, rfl, hfirst, hmore⟩ := matches_seq hrun
  have hstars : ∀ c ∈ first ++ more, c = '*' := by
    rw [matches_char hfirst]
    intro c hc
    rcases List.mem_cons.mp hc with rfl | hc
    · rfl
    · exact beq_iff_eq.mp (matches_many_one hmore c hc)
  have hne : first ++ more ≠ [] := by simp [matches_char hfirst]
  refine ⟨List.isChain_append.mpr ⟨unclosed_of_not_star hcs, unclosed_of_not_slash ?_, ?_⟩, ?_⟩
  · intro hslash
    exact absurd (hstars _ hslash) (by decide)
  · intro a ha b _ hstar
    exact absurd (hstar ▸ List.mem_of_mem_getLast? ha) hcs
  · rw [List.getLast?_append_of_ne_nil _ hne, List.getLast?_eq_some_getLast hne,
      hstars _ (List.getLast_mem hne)]

/-- Text that starts with neither a star nor a slash goes on with a comment. -/
theorem AtStar.append {cs ds : List Char} {c : Char} (h : AtStar cs) (hc : c ≠ '/')
    (hds : AtStar (c :: ds)) : AtStar (cs ++ c :: ds) := by
  refine ⟨List.isChain_append.mpr ⟨h.unclosed, hds.unclosed, ?_⟩, ?_⟩
  · intro a _ b hb _
    obtain rfl : c = b := by simpa using hb
    exact hc
  · rw [List.getLast?_append_of_ne_nil _ (List.cons_ne_nil _ _), hds.star]

theorem not_mem_of_matches {c : Char} {w : List Char}
    (h : Matches (many (Pattern.except [c])) w) : c ∉ w := by
  intro hc
  have := matches_many_one h c hc
  simp at this

theorem matches_of_not_mem {c : Char} {w : List Char} (h : c ∉ w) :
    Matches (many (Pattern.except [c])) w := by
  refine matches_of_all fun d hd => ?_
  have hne : d ≠ c := fun heq => h (heq ▸ hd)
  simp [hne]

/-- The groups that a closed comment goes on with. -/
theorem atStar_groups {v : List Char}
    (h : Matches (many (seq (Pattern.except ['/', '*'])
      (seq (many (Pattern.except ['*'])) (many1 (char '*'))))) v) :
    ∀ cs, AtStar cs → AtStar (cs ++ v) := by
  generalize hp : many _ = p at h
  induction h with
  | one | seq | altLeft | altRight => cases hp
  | manyNil =>
    intro cs hcs
    rwa [List.append_nil]
  | manyCons ha _ _ ih =>
    cases hp
    intro cs hcs
    obtain ⟨first, more, rfl, hfirst, hmore⟩ := matches_seq ha
    obtain ⟨c, rfl, hc⟩ := matches_one hfirst
    obtain ⟨body, run, rfl, hbody, hrun⟩ := matches_seq hmore
    simp only [List.contains_cons, List.contains_nil, Bool.or_false, Bool.not_eq_true',
      Bool.or_eq_false_iff, beq_eq_false_iff_ne] at hc
    have hstar : '*' ∉ c :: body := by
      simpa [Ne.symm hc.2] using not_mem_of_matches hbody
    have hgroup := hcs.append hc.1 (atStar_run hstar hrun)
    rw [← List.append_assoc]
    exact ih rfl _ (by simpa using hgroup)

/-- **A closed comment ends with the first star that stands before a slash.** -/
theorem blockComment_body {w : List Char} (h : Matches blockComment w) :
    ∃ body, w = '/' :: '*' :: (body ++ ['*', '/']) ∧ Unclosed (body ++ ['*']) := by
  obtain ⟨slash, w, rfl, hslash, h⟩ := matches_seq h
  obtain ⟨star, w, rfl, hstar, h⟩ := matches_seq h
  obtain ⟨body, w, rfl, hbody, h⟩ := matches_seq h
  obtain ⟨run, w, rfl, hrun, h⟩ := matches_seq h
  obtain ⟨groups, close, rfl, hgroups, hclose⟩ := matches_seq h
  have hall := atStar_groups hgroups _ (atStar_run (not_mem_of_matches hbody) hrun)
  obtain ⟨front, hfront⟩ := List.getLast?_eq_some_iff.mp hall.star
  refine ⟨front, ?_, ?_⟩
  · rw [matches_char hslash, matches_char hstar, matches_char hclose]
    simp only [List.cons_append, List.nil_append, ← List.append_assoc, hfront]
    simp
  · rw [← hfront]
    exact hall.unclosed

theorem AtStar.tail {c : Char} {cs : List Char} (h : AtStar (c :: cs)) (hcs : cs ≠ []) :
    AtStar cs where
  unclosed := h.unclosed.tail
  star := by rw [← h.star, List.getLast?_cons_of_ne_nil hcs]

/-- Text that the next slash closes is text without stars, a run of stars, and groups that each end
in such a run. -/
theorem AtStar.groups {cs : List Char} (h : AtStar cs) :
    ∃ text run more, cs = text ++ (run ++ more) ∧ '*' ∉ text ∧ Matches (many1 (char '*')) run ∧
      Matches (many (seq (Pattern.except ['/', '*'])
        (seq (many (Pattern.except ['*'])) (many1 (char '*'))))) more := by
  have hone : Matches (char '*') ['*'] := .one (beq_self_eq_true '*')
  induction cs with
  | nil => cases h.star
  | cons c cs ih =>
    by_cases hend : cs = []
    · obtain rfl : c = '*' := by simpa [hend] using h.star
      exact ⟨[], ['*'], [], by simp [hend], by simp, .seq hone .manyNil, .manyNil⟩
    obtain ⟨text, run, more, rfl, htext, hrun, hmore⟩ := ih (h.tail hend)
    by_cases hc : c = '*'
    · subst hc
      cases text with
      | nil =>
        obtain ⟨first, others, rfl, hfirst, hothers⟩ := matches_seq hrun
        have hlonger : Matches (many1 (char '*')) (['*'] ++ (first ++ others)) :=
          .seq hone (.manyCons hfirst hothers)
        exact ⟨[], _, more, by simp, by simp, hlonger, hmore⟩
      | cons d text =>
        -- The star is a run of its own, and the text behind it starts a group.
        have hslash : d ≠ '/' := (List.isChain_cons_cons.mp h.unclosed).1 rfl
        simp only [List.mem_cons, not_or] at htext
        have hgroup : Matches (seq (Pattern.except ['/', '*'])
            (seq (many (Pattern.except ['*'])) (many1 (char '*')))) ([d] ++ (text ++ run)) :=
          .seq (.one (by simp [hslash, Ne.symm htext.1])) (.seq (matches_of_not_mem htext.2) hrun)
        exact ⟨[], ['*'], _, by simp, by simp, .seq hone .manyNil, .manyCons hgroup hmore⟩
    · exact ⟨c :: text, run, more, rfl, by simp [Ne.symm hc, htext], hrun, hmore⟩

/-- **Text with no star before a slash, up to its last star, is the inside of a closed comment.** -/
theorem matches_blockComment {body : List Char} (h : Unclosed (body ++ ['*'])) :
    Matches blockComment ('/' :: '*' :: (body ++ ['*', '/'])) := by
  obtain ⟨text, run, more, hcs, htext, hrun, hmore⟩ := AtStar.groups ⟨h, by simp⟩
  have hchar (c : Char) : Matches (char c) [c] := .one (beq_self_eq_true c)
  have hall : Matches blockComment (['/'] ++ (['*'] ++ (text ++ (run ++ (more ++ ['/']))))) :=
    .seq (hchar '/') (.seq (hchar '*')
      (.seq (matches_of_not_mem htext) (.seq hrun (.seq hmore (hchar '/')))))
  have hbody : body ++ ['*', '/'] = text ++ (run ++ (more ++ ['/'])) := by
    rw [List.append_cons, hcs]
    simp
  rw [hbody]
  exact hall

/-- **A comment on a line ends where the line does.** -/
theorem lineComment_body {s front rest : List Char}
    (h : lineComment.split? s = some (front, rest)) :
    ∃ body, front = '/' :: '/' :: body ∧ '\n' ∉ body ∧ ∀ c, rest.head? = some c → c = '\n' := by
  obtain ⟨rfl, hm⟩ := split?_sound h
  obtain ⟨slash, w, rfl, hslash, hm⟩ := matches_seq hm
  obtain ⟨again, body, rfl, hagain, hbody⟩ := matches_seq hm
  obtain rfl := matches_char hslash
  obtain rfl := matches_char hagain
  refine ⟨body, rfl, not_mem_of_matches hbody, ?_⟩
  -- The repetition takes all that belongs to the line, so what is left starts with something else.
  have hrun : lineComment.split? ('/' :: '/' :: (body ++ rest)) =
      some ('/' :: '/' :: (body ++ rest).takeWhile (fun c => !(['\n'].contains c)),
        (body ++ rest).dropWhile (fun c => !(['\n'].contains c))) := by
    have hmany : (many (Pattern.except ['\n'])).run some ⟨['/', '/'], body ++ rest⟩ = _ :=
      run_many_one rfl
    simp only [split?, lineComment, char, Pattern.except, Pattern.run, beq_self_eq_true,
      if_true] at hmany ⊢
    rw [hmany]
    simp
  rw [List.append_assoc, List.append_assoc, List.singleton_append, List.singleton_append,
    hrun] at h
  obtain ⟨-, hrest⟩ := Prod.mk.inj (Option.some.inj h)
  intro c hc
  have hnot := List.head?_dropWhile_not (fun c => !(['\n'].contains c)) (body ++ rest)
  rw [hrest, hc] at hnot
  simpa using hnot

end Lexical
end BlockC
