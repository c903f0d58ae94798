import BlockC.Token.Pattern

/-! # What patterns match

`Pattern.run` explores the ways to match in a fixed order and hands each to a continuation.  This
module says which texts a pattern describes at all (`Matches`), proves that whatever `run` takes is
one of them and is taken from the front of the text (`run_sound`), and gives the text that a
repetition of one class of characters takes when nothing behind it can refuse
(`run_many_one`).
-/
namespace BlockC
namespace Pattern

/-- The texts that a pattern describes, whatever stands behind them. -/
inductive Matches : Pattern → List Char → Prop
  | one {belongs : Char → Bool} {c : Char} (h : belongs c = true) : Matches (one belongs) [c]
  | seq {a b : Pattern} {u v : List Char} (ha : Matches a u) (hb : Matches b v) :
      Matches (seq a b) (u ++ v)
  | altLeft {a b : Pattern} {u : List Char} (ha : Matches a u) : Matches (alt a b) u
  | altRight {a b : Pattern} {u : List Char} (hb : Matches b u) : Matches (alt a b) u
  | manyNil {a : Pattern} : Matches (many a) []
  | manyCons {a : Pattern} {u v : List Char} (ha : Matches a u) (hs : Matches (many a) v) :
      Matches (many a) (u ++ v)

/-- Of the texts at the front of `s` that a pattern describes, `front` is the longest. -/
structure IsLongest (p : Pattern) (s front : List Char) : Prop where
  stands : front <+: s
  fits : Matches p front
  longest : ∀ v, v <+: s → Matches p v → v.length ≤ front.length

/-! ### Taking apart what is matched -/

theorem matches_one {belongs : Char → Bool} {w : List Char} (h : Matches (one belongs) w) :
    ∃ c, w = [c] ∧ belongs c = true := by
  cases h with
  | one hc => exact ⟨_, rfl, hc⟩

theorem matches_seq {a b : Pattern} {w : List Char} (h : Matches (seq a b) w) :
    ∃ u v, w = u ++ v ∧ Matches a u ∧ Matches b v := by
  cases h with
  | seq ha hb => exact ⟨_, _, rfl, ha, hb⟩

theorem matches_alt {a b : Pattern} {w : List Char} (h : Matches (alt a b) w) :
    Matches a w ∨ Matches b w := by
  cases h with
  | altLeft ha => exact Or.inl ha
  | altRight hb => exact Or.inr hb

/-- A repetition is empty, or one repetition and the rest. -/
theorem matches_many {a : Pattern} {w : List Char} (h : Matches (many a) w) :
    w = [] ∨ ∃ u v, w = u ++ v ∧ Matches a u ∧ Matches (many a) v := by
  cases h with
  | manyNil => exact Or.inl rfl
  | manyCons ha hs => exact Or.inr ⟨_, _, rfl, ha, hs⟩

theorem matches_char {c : Char} {w : List Char} (h : Matches (char c) w) : w = [c] := by
  obtain ⟨d, rfl, hd⟩ := matches_one h
  rw [beq_iff_eq.mp hd]

/-- A fixed text matches itself only. -/
theorem matches_text {c : Char} {cs w : List Char} (h : Matches (text c cs) w) :
    w = c :: cs := by
  induction cs generalizing c w with
  | nil => exact matches_char h
  | cons d cs ih =>
    obtain ⟨u, v, rfl, hu, hv⟩ := matches_seq h
    rw [matches_char hu, ih hv]
    rfl

/-- A repetition of one class matches texts of that class. -/
theorem matches_many_one {belongs : Char → Bool} {w : List Char}
    (h : Matches (many (one belongs)) w) : ∀ c ∈ w, belongs c = true := by
  generalize hp : many (one belongs) = p at h
  induction h with
  | one | seq | altLeft | altRight => cases hp
  | manyNil => simp
  | manyCons ha _ _ ih =>
    cases hp
    obtain ⟨d, rfl, hd⟩ := matches_one ha
    intro c hc
    rcases List.mem_append.mp hc with h | h
    · rw [List.mem_singleton.mp h]
      exact hd
    · exact ih rfl c h

theorem matches_of_all {belongs : Char → Bool} {w : List Char} (h : ∀ c ∈ w, belongs c = true) :
    Matches (many (one belongs)) w := by
  induction w with
  | nil => exact .manyNil
  | cons c cs ih =>
    exact .manyCons (.one (h c (by simp))) (ih fun d hd => h d (by simp [hd]))

/-! ### Groups -/

theorem matches_many1_one_iff {belongs : Char → Bool} {w : List Char} :
    Matches (many1 (one belongs)) w ↔ w ≠ [] ∧ ∀ c ∈ w, belongs c = true := by
  constructor
  · intro h
    obtain ⟨u, v, rfl, hu, hv⟩ := matches_seq h
    obtain ⟨c, rfl, hc⟩ := matches_one hu
    exact ⟨by simp, List.forall_mem_append.mpr ⟨by simpa using hc, matches_many_one hv⟩⟩
  · rintro ⟨hne, h⟩
    obtain ⟨c, cs, rfl⟩ := List.exists_cons_of_ne_nil hne
    obtain ⟨hc, hcs⟩ := List.forall_mem_cons.mp h
    exact .seq (.one hc) (matches_of_all hcs)

/-- Further groups, each behind a mark. -/
theorem matches_groups_iff {belongs : Char → Bool} {mark : Char} {w : List Char} :
    Matches (many (seq (char mark) (many1 (one belongs)))) w ↔
      ∃ more : List (List Char), w = more.flatMap (mark :: ·) ∧
        ∀ g ∈ more, g ≠ [] ∧ ∀ c ∈ g, belongs c = true := by
  constructor
  · intro h
    generalize hp : many _ = p at h
    induction h with
    | one | seq | altLeft | altRight => cases hp
    | manyNil => exact ⟨[], rfl, by simp⟩
    | manyCons hu _ _ ih =>
      cases hp
      obtain ⟨m, g, rfl, hm, hg⟩ := matches_seq hu
      obtain ⟨more, rfl, hmore⟩ := ih rfl
      refine ⟨g :: more, by simp [matches_char hm], ?_⟩
      exact List.forall_mem_cons.mpr ⟨matches_many1_one_iff.mp hg, hmore⟩
  · rintro ⟨more, rfl, hmore⟩
    induction more with
    | nil => exact .manyNil
    | cons g more ih =>
      obtain ⟨hg, hmore⟩ := List.forall_mem_cons.mp hmore
      have hmark : Matches (char mark) [mark] := .one (beq_self_eq_true mark)
      exact .manyCons (.seq hmark (matches_many1_one_iff.mpr hg)) (ih hmore)

theorem matches_grouped_iff {belongs : Char → Bool} {mark : Char} {w : List Char} :
    Matches (grouped (one belongs) mark) w ↔
      ∃ (first : List Char) (more : List (List Char)), w = first ++ more.flatMap (mark :: ·) ∧
        ∀ g ∈ first :: more, g ≠ [] ∧ ∀ c ∈ g, belongs c = true := by
  constructor
  · intro h
    obtain ⟨first, rest, rfl, hfirst, hrest⟩ := matches_seq h
    obtain ⟨more, rfl, hmore⟩ := matches_groups_iff.mp hrest
    exact ⟨first, more, rfl, List.forall_mem_cons.mpr ⟨matches_many1_one_iff.mp hfirst, hmore⟩⟩
  · rintro ⟨first, more, rfl, h⟩
    obtain ⟨hfirst, hmore⟩ := List.forall_mem_cons.mp h
    exact .seq (matches_many1_one_iff.mpr hfirst) (matches_groups_iff.mpr ⟨more, rfl, hmore⟩)

/-- The last group can go on. -/
theorem matches_grouped_concat {belongs : Char → Bool} {mark c : Char} {w : List Char}
    (h : Matches (grouped (one belongs) mark) w) (hc : belongs c = true) :
    Matches (grouped (one belongs) mark) (w ++ [c]) := by
  obtain ⟨first, more, rfl, hgroups⟩ := matches_grouped_iff.mp h
  have hlonger : ∀ g, (g ≠ [] ∧ ∀ d ∈ g, belongs d = true) →
      g ++ [c] ≠ [] ∧ ∀ d ∈ g ++ [c], belongs d = true := by
    rintro g ⟨-, hg⟩
    exact ⟨by simp, List.forall_mem_append.mpr ⟨hg, by simpa using hc⟩⟩
  rcases List.eq_nil_or_concat more with rfl | ⟨front, last, rfl⟩
  · refine matches_grouped_iff.mpr ⟨first ++ [c], [], by simp, ?_⟩
    simpa using hlonger first (hgroups first (by simp))
  · refine matches_grouped_iff.mpr ⟨first, front ++ [last ++ [c]], by simp, fun g hg => ?_⟩
    simp only [List.mem_cons, List.mem_append, List.not_mem_nil, or_false] at hg
    rcases hg with rfl | hg | rfl
    · exact hgroups g (by simp)
    · exact hgroups g (by simp [hg])
    · exact hlonger last (hgroups last (by simp))

/-- A further group can follow. -/
theorem matches_grouped_next {belongs : Char → Bool} {mark c : Char} {w : List Char}
    (h : Matches (grouped (one belongs) mark) w) (hc : belongs c = true) :
    Matches (grouped (one belongs) mark) (w ++ [mark, c]) := by
  obtain ⟨first, more, rfl, hgroups⟩ := matches_grouped_iff.mp h
  refine matches_grouped_iff.mpr ⟨first, more ++ [[c]], by simp, fun g hg => ?_⟩
  rw [← List.cons_append, List.mem_append, List.mem_singleton] at hg
  rcases hg with hg | rfl
  · exact hgroups g hg
  · simpa using hc

/-! ### What is taken is matched -/

/-- A repetition that stops for a continuation has taken some repetitions of its body. -/
theorem repeatAlong_sound {a : Pattern} {k : Cut → Option Cut}
    (ha : ∀ (k : Cut → Option Cut) (s r : Cut), a.run k s = some r →
      ∃ w rest, s.rest = w ++ rest ∧ Matches a w ∧ k ⟨w.reverse ++ s.taken, rest⟩ = some r) :
    ∀ (bound : List Char) (s r : Cut), repeatAlong a.run k bound s = some r →
      ∃ w rest, s.rest = w ++ rest ∧ Matches (many a) w ∧ k ⟨w.reverse ++ s.taken, rest⟩ = some r
  | [], s, r, h => ⟨[], s.rest, rfl, .manyNil, h⟩
  | _ :: bound, s, r, h => by
    unfold repeatAlong at h
    split at h
    · rename_i r' hr
      obtain rfl := Option.some.inj h
      obtain ⟨u, rest, hu, hau, hk⟩ := ha _ _ _ hr
      obtain ⟨v, rest', hv, hav, hk'⟩ := repeatAlong_sound ha bound _ _ hk
      refine ⟨u ++ v, rest', ?_, .manyCons hau hav, ?_⟩
      · rw [hu, show rest = v ++ rest' from hv, List.append_assoc]
      · simpa using hk'
    · exact ⟨[], s.rest, rfl, .manyNil, h⟩

/-- **What `run` takes is a match at the front of the rest.** -/
theorem run_sound (p : Pattern) (k : Cut → Option Cut) (s r : Cut) (h : p.run k s = some r) :
    ∃ w rest, s.rest = w ++ rest ∧ Matches p w ∧ k ⟨w.reverse ++ s.taken, rest⟩ = some r := by
  induction p generalizing k s r with
  | one belongs =>
    obtain ⟨taken, rest⟩ := s
    cases rest with
    | nil => simp [run] at h
    | cons c rest =>
      simp only [run] at h
      split at h
      · rename_i hc
        exact ⟨[c], rest, rfl, .one hc, h⟩
      · cases h
  | seq a b iha ihb =>
    obtain ⟨u, rest, hu, hau, hk⟩ := iha _ _ _ h
    obtain ⟨v, rest', hv, hbv, hk'⟩ := ihb _ _ _ hk
    refine ⟨u ++ v, rest', ?_, .seq hau hbv, ?_⟩
    · rw [hu, show rest = v ++ rest' from hv, List.append_assoc]
    · simpa using hk'
  | alt a b iha ihb =>
    simp only [run] at h
    split at h
    · rename_i r' hr
      obtain rfl := Option.some.inj h
      obtain ⟨w, rest, hw, haw, hk⟩ := iha _ _ _ hr
      exact ⟨w, rest, hw, .altLeft haw, hk⟩
    · obtain ⟨w, rest, hw, hbw, hk⟩ := ihb _ _ _ h
      exact ⟨w, rest, hw, .altRight hbw, hk⟩
  | many a iha => exact repeatAlong_sound iha _ _ _ h

/-- **A split is a match and what is left behind it.** -/
theorem split?_sound {p : Pattern} {s front rest : List Char}
    (h : p.split? s = some (front, rest)) : s = front ++ rest ∧ Matches p front := by
  obtain ⟨cut, hrun, heq⟩ := Option.map_eq_some_iff.mp h
  obtain ⟨w, rest', hw, hm, hk⟩ := run_sound p some _ _ hrun
  obtain ⟨rfl, rfl⟩ := Prod.mk.inj heq
  obtain rfl := Option.some.inj hk
  simpa using ⟨hw, hm⟩

/-! ### What a repetition takes -/

/-- A repetition of one class before a continuation that accepts the whole run of that class takes
the whole run. -/
theorem repeatAlong_one {belongs : Char → Bool} {k : Cut → Option Cut} {r : Cut} :
    ∀ (bound taken rest : List Char), rest.length ≤ bound.length →
      k ⟨(rest.takeWhile belongs).reverse ++ taken, rest.dropWhile belongs⟩ = some r →
      repeatAlong (one belongs).run k bound ⟨taken, rest⟩ = some r
  | [], taken, rest, hlen, hk => by
    obtain rfl : rest = [] := List.length_eq_zero_iff.mp (Nat.le_zero.mp hlen)
    exact hk
  | _ :: bound, taken, [], _, hk => by
    simpa [repeatAlong, run] using hk
  | _ :: bound, taken, c :: rest, hlen, hk => by
    by_cases hc : belongs c = true
    · have hrec := repeatAlong_one (k := k) (r := r) bound (c :: taken) rest
        (by simpa using hlen) (by simpa [hc] using hk)
      simp [repeatAlong, run, hc, hrec]
    · simpa [repeatAlong, run, hc] using hk

theorem run_many_one {belongs : Char → Bool} {k : Cut → Option Cut} {r : Cut}
    {taken rest : List Char}
    (hk : k ⟨(rest.takeWhile belongs).reverse ++ taken, rest.dropWhile belongs⟩ = some r) :
    (many (one belongs)).run k ⟨taken, rest⟩ = some r :=
  repeatAlong_one rest taken rest (Nat.le_refl _) hk

end Pattern
end BlockC
