import BlockC.Proofs.Comments
import BlockC.Proofs.Scanning
import BlockC.Proofs.TextPartition

/-! # Text behind a line

What the scanner finds in a text does not depend on what stands on the lines behind it, unless the
text ends inside a comment.  A pattern none of whose classes has the line feed cannot see past it
(`Pattern.split?_behind`); a closed comment is taken however the text goes on (`split?_closed`).  So
the tokens of a text come first when a line with a semicolon and anything else is put behind it
(`scan_seam`), or else a slash and a star are among them.
-/
namespace BlockC
namespace Pattern

/-! ### Patterns that take something -/

/-- Whether every match has a character. -/
def takes : Pattern → Bool
  | one _ => true
  | seq a b => a.takes || b.takes
  | alt a b => a.takes && b.takes
  | many _ => false

/-- Whether every repetition is of something that has a character. -/
def productive : Pattern → Bool
  | one _ => true
  | seq a b | alt a b => a.productive && b.productive
  | many a => a.takes && a.productive

/-- Whether no class of the pattern has the character. -/
def avoids (c : Char) : Pattern → Bool
  | one belongs => !belongs c
  | seq a b | alt a b => a.avoids c && b.avoids c
  | many a => a.avoids c

theorem ne_nil_of_takes {p : Pattern} {w : List Char} (hp : p.takes = true) (h : Matches p w) :
    w ≠ [] := by
  induction h with
  | one => exact List.cons_ne_nil _ _
  | seq _ _ iha ihb =>
    rcases Bool.or_eq_true_iff.mp hp with ha | hb
    · exact List.append_ne_nil_of_left_ne_nil (iha ha) _
    · exact List.append_ne_nil_of_right_ne_nil _ (ihb hb)
  | altLeft _ ih => exact ih (Bool.and_eq_true_iff.mp hp).1
  | altRight _ ih => exact ih (Bool.and_eq_true_iff.mp hp).2
  | manyNil | manyCons => cases hp

/-- A pattern that takes something takes nothing from an empty text. -/
theorem run_nil {p : Pattern} (hp : p.takes = true) (k : Cut → Option Cut) (taken : List Char) :
    p.run k ⟨taken, []⟩ = none := by
  cases h : p.run k ⟨taken, []⟩ with
  | none => rfl
  | some r =>
    obtain ⟨w, rest, hw, hm, -⟩ := run_sound p k _ r h
    exact absurd (List.append_eq_nil_iff.mp hw.symm).1 (ne_nil_of_takes hp hm)

/-! ### A match that can be taken is found -/

/-- A repetition that some continuation accepts is found, if the bound allows for it. -/
theorem repeatAlong_complete {a : Pattern} {k : Cut → Option Cut} (htakes : a.takes = true)
    (ha : ∀ (k : Cut → Option Cut) (w taken rest : List Char), Matches a w →
      (k ⟨w.reverse ++ taken, rest⟩).isSome → (a.run k ⟨taken, w ++ rest⟩).isSome)
    {w : List Char} (hw : Matches (many a) w) :
    ∀ (bound taken rest : List Char), w.length ≤ bound.length →
      (k ⟨w.reverse ++ taken, rest⟩).isSome →
      (repeatAlong a.run k bound ⟨taken, w ++ rest⟩).isSome := by
  generalize hp : many a = p at hw
  induction hw with
  | one | seq | altLeft | altRight => cases hp
  | manyNil =>
    intro bound taken rest _ hk
    cases bound with
    | nil => exact hk
    | cons _ bound =>
      unfold repeatAlong
      split
      · rfl
      · exact hk
  | @manyCons _ u v hu hv _ ih =>
    cases hp
    intro bound taken rest hbound hk
    have hpos : 0 < u.length := List.length_pos_iff.mpr (ne_nil_of_takes htakes hu)
    rw [List.length_append] at hbound
    cases bound with
    | nil =>
      rw [List.length_nil] at hbound
      omega
    | cons b bound =>
      rw [List.length_cons] at hbound
      have hmore : (repeatAlong a.run k bound ⟨u.reverse ++ taken, v ++ rest⟩).isSome :=
        ih rfl bound (u.reverse ++ taken) rest (by omega) (by simpa using hk)
      have hfound := ha (repeatAlong a.run k bound) u taken (v ++ rest) hu hmore
      rw [List.append_assoc]
      unfold repeatAlong
      split
      · rfl
      · rename_i hnone
        rw [hnone] at hfound
        cases hfound

/-- **Where a match stands that the continuation accepts, `run` finds one.** -/
theorem run_complete (p : Pattern) (hp : p.productive = true) (k : Cut → Option Cut)
    (w taken rest : List Char) (h : Matches p w) (hk : (k ⟨w.reverse ++ taken, rest⟩).isSome) :
    (p.run k ⟨taken, w ++ rest⟩).isSome := by
  induction p generalizing k w taken rest with
  | one belongs =>
    obtain ⟨c, rfl, hc⟩ := matches_one h
    simpa [run, hc] using hk
  | seq a b iha ihb =>
    obtain ⟨hpa, hpb⟩ := Bool.and_eq_true_iff.mp hp
    obtain ⟨u, v, rfl, hu, hv⟩ := matches_seq h
    rw [List.append_assoc]
    exact iha hpa (b.run k) u taken (v ++ rest) hu
      (ihb hpb k v (u.reverse ++ taken) rest hv (by simpa using hk))
  | alt a b iha ihb =>
    obtain ⟨hpa, hpb⟩ := Bool.and_eq_true_iff.mp hp
    unfold run
    split
    · rfl
    · rename_i hnone
      rcases matches_alt h with ha | hb
      · have hfound := iha hpa k w taken rest ha hk
        rw [hnone] at hfound
        cases hfound
      · exact ihb hpb k w taken rest hb hk
  | many a iha =>
    obtain ⟨htakes, hpa⟩ := Bool.and_eq_true_iff.mp hp
    exact repeatAlong_complete htakes (fun k w taken rest => iha hpa k w taken rest) h _ taken rest
      (by simp) hk

theorem split?_isSome {p : Pattern} (hp : p.productive = true) {w : List Char} (h : Matches p w)
    (rest : List Char) : (p.split? (w ++ rest)).isSome := by
  rw [split?, Option.isSome_map]
  exact run_complete p hp some w [] rest h rfl

/-! ### Patterns that cannot see past a character -/

/-- The same cut before more text. -/
def Cut.before (more : List Char) (s : Cut) : Cut :=
  ⟨s.taken, s.rest ++ more⟩

/-- A repetition takes the same before a character that its body avoids. -/
theorem repeatAlong_behind {a : Pattern} {c : Char} {z : List Char} (htakes : a.takes = true)
    (ha : ∀ (k k' : Cut → Option Cut) (taken rest : List Char),
      (∀ w rest', rest = w ++ rest' → Matches a w →
        k' ⟨w.reverse ++ taken, rest' ++ c :: z⟩ =
          (k ⟨w.reverse ++ taken, rest'⟩).map (·.before (c :: z))) →
      a.run k' ⟨taken, rest ++ c :: z⟩ = (a.run k ⟨taken, rest⟩).map (·.before (c :: z)))
    (k k' : Cut → Option Cut) : ∀ (bound bound' taken rest : List Char),
      rest.length ≤ bound.length → rest.length ≤ bound'.length →
      (∀ w rest', rest = w ++ rest' → Matches (many a) w →
        k' ⟨w.reverse ++ taken, rest' ++ c :: z⟩ =
          (k ⟨w.reverse ++ taken, rest'⟩).map (·.before (c :: z))) →
      repeatAlong a.run k' bound' ⟨taken, rest ++ c :: z⟩ =
        (repeatAlong a.run k bound ⟨taken, rest⟩).map (·.before (c :: z)) := by
  intro bound
  induction bound with
  | nil =>
    intro bound' taken rest hb _ hk
    obtain rfl : rest = [] := List.length_eq_zero_iff.mp (Nat.le_zero.mp hb)
    have hstop := hk [] [] rfl .manyNil
    cases bound' with
    | nil => exact hstop
    | cons b bound' =>
      -- Nothing is left for the body, whatever it is followed by.
      have hnone := ha (fun _ => none) (repeatAlong a.run k' bound') taken [] fun w rest' hw hm =>
        absurd (List.append_eq_nil_iff.mp hw.symm).1 (ne_nil_of_takes htakes hm)
      rw [run_nil htakes] at hnone
      unfold repeatAlong
      rw [hnone]
      exact hstop
  | cons b bound ih =>
    intro bound' taken rest hb hb' hk
    have hstop := hk [] rest rfl .manyNil
    cases bound' with
    | nil =>
      obtain rfl : rest = [] := List.length_eq_zero_iff.mp (Nat.le_zero.mp hb')
      unfold repeatAlong
      rw [run_nil htakes]
      exact hstop
    | cons b' bound' =>
      have hbody := ha (repeatAlong a.run k bound) (repeatAlong a.run k' bound') taken rest ?_
      · simp only [repeatAlong]
        rw [hbody]
        cases a.run (repeatAlong a.run k bound) ⟨taken, rest⟩ with
        | some r => rfl
        | none => exact hstop
      · intro w rest' hw hm
        have hpos : 0 < w.length := List.length_pos_iff.mpr (ne_nil_of_takes htakes hm)
        subst hw
        simp only [List.length_append, List.length_cons] at hb hb'
        refine ih bound' _ rest' (by omega) (by omega) fun w' rest'' hw' hm' => ?_
        have := hk (w ++ w') rest'' (by rw [hw', List.append_assoc]) (.manyCons hm hm')
        simpa using this

/-- A pattern takes the same before a character that it avoids. -/
theorem run_behind {c : Char} {z : List Char} (p : Pattern) (havoids : p.avoids c = true)
    (hp : p.productive = true) (k k' : Cut → Option Cut) (taken rest : List Char)
    (hk : ∀ w rest', rest = w ++ rest' → Matches p w →
      k' ⟨w.reverse ++ taken, rest' ++ c :: z⟩ =
        (k ⟨w.reverse ++ taken, rest'⟩).map (·.before (c :: z))) :
    p.run k' ⟨taken, rest ++ c :: z⟩ = (p.run k ⟨taken, rest⟩).map (·.before (c :: z)) := by
  induction p generalizing k k' taken rest with
  | one belongs =>
    cases rest with
    | nil =>
      have hnot : belongs c = false := by simpa [avoids] using havoids
      simp [run, hnot]
    | cons d rest =>
      by_cases hd : belongs d = true
      · simpa [run, hd] using hk [d] rest rfl (.one hd)
      · simp [run, hd]
  | seq a b iha ihb =>
    obtain ⟨ha, hb⟩ := Bool.and_eq_true_iff.mp havoids
    obtain ⟨hpa, hpb⟩ := Bool.and_eq_true_iff.mp hp
    refine iha ha hpa (b.run k) (b.run k') taken rest fun u rest' hu hm => ?_
    refine ihb hb hpb k k' _ rest' fun v rest'' hv hm' => ?_
    have := hk (u ++ v) rest'' (by rw [hu, hv, List.append_assoc]) (.seq hm hm')
    simpa using this
  | alt a b iha ihb =>
    obtain ⟨ha, hb⟩ := Bool.and_eq_true_iff.mp havoids
    obtain ⟨hpa, hpb⟩ := Bool.and_eq_true_iff.mp hp
    have hleft := iha ha hpa k k' taken rest fun w rest' hw hm => hk w rest' hw (.altLeft hm)
    have hright := ihb hb hpb k k' taken rest fun w rest' hw hm => hk w rest' hw (.altRight hm)
    simp only [run]
    rw [hleft, hright]
    cases a.run k ⟨taken, rest⟩ <;> rfl
  | many a iha =>
    obtain ⟨htakes, hpa⟩ := Bool.and_eq_true_iff.mp hp
    exact repeatAlong_behind htakes (fun k k' taken rest => iha havoids hpa k k' taken rest) k k'
      rest _ taken rest (Nat.le_refl _) (by simp) hk

/-- **What a pattern takes from a text does not depend on what stands behind a character that it
avoids.** -/
theorem split?_behind {p : Pattern} {c : Char} (havoids : p.avoids c = true)
    (hp : p.productive = true) (s z : List Char) :
    p.split? (s ++ c :: z) = (p.split? s).map fun cut => (cut.1, cut.2 ++ c :: z) := by
  have hrun := run_behind (z := z) p havoids hp some some [] s fun _ _ _ _ => rfl
  rw [split?, split?, hrun, Option.map_map, Option.map_map]
  rfl

end Pattern

namespace Lexical

open Pattern

/-! ### The rules before a line feed -/

/-- All rules but those for blanks and closed comments avoid the line feed. -/
theorem rule_cases {r : Rule} (h : r ∈ rules) :
    r.pattern = blanks ∨ r.pattern = blockComment ∨
      (r.pattern.avoids '\n' = true ∧ r.pattern.productive = true) := by
  rcases List.mem_append.mp h with h | h
  · simp only [List.mem_cons, List.not_mem_nil, or_false] at h
    rcases h with rfl | rfl | rfl | rfl | rfl | rfl
    · exact Or.inr (Or.inr ⟨by decide, by decide⟩)
    · exact Or.inr (Or.inr ⟨by decide, by decide⟩)
    · exact Or.inl rfl
    · exact Or.inr (Or.inr ⟨by decide, by decide⟩)
    · exact Or.inr (Or.inr ⟨by decide, by decide⟩)
    · exact Or.inr (Or.inl rfl)
  · obtain ⟨p, -, rfl⟩ := List.mem_map.mp h
    refine Or.inr (Or.inr ?_)
    cases p <;> decide

/-- No closed comment is the start of another one. -/
theorem closed_unique {w w' : List Char} (h : Matches blockComment w) (h' : Matches blockComment w')
    (hfront : w <+: w') : w = w' := by
  obtain ⟨body, rfl, -⟩ := blockComment_body h
  obtain ⟨body', rfl, hopen⟩ := blockComment_body h'
  have hinner : body ++ ['*', '/'] <+: (body' ++ ['*']) ++ ['/'] := by
    simpa [List.cons_prefix_cons] using hfront
  rcases List.prefix_concat_iff.mp hinner with heq | ⟨more, hmore⟩
  · rw [heq]
    simp
  · -- The longer one would hold a star before a slash.
    rw [Unclosed, ← hmore, List.append_assoc] at hopen
    exact absurd rfl (List.isChain_iff_forall_rel_of_append_cons_cons.mp hopen rfl rfl)

/-- **A closed comment is taken whole, whatever stands behind it.** -/
theorem split?_closed {w : List Char} (hw : Matches blockComment w) (rest : List Char) :
    blockComment.split? (w ++ rest) = some (w, rest) := by
  obtain ⟨⟨w', rest'⟩, hsplit⟩ := Option.isSome_iff_exists.mp (split?_isSome (by decide) hw rest)
  obtain ⟨heq, hw'⟩ := split?_sound hsplit
  have hsame : w = w' := by
    rcases List.prefix_or_prefix_of_prefix ⟨rest, heq⟩ (List.prefix_append w' rest') with hle | hle
    · exact closed_unique hw hw' hle
    · exact (closed_unique hw' hw hle).symm
  subst hsame
  rw [hsplit, List.append_cancel_left heq]

theorem closed_split {s w rest : List Char} (h : blockComment.split? s = some (w, rest))
    (z : List Char) : blockComment.split? (s ++ z) = some (w, rest ++ z) := by
  obtain ⟨rfl, hw⟩ := split?_sound h
  rw [List.append_assoc, split?_closed hw]

theorem blockComment_none {c : Char} {cs : List Char}
    (h : ∀ more, c :: cs ≠ '/' :: '*' :: more) : blockComment.split? (c :: cs) = none := by
  cases hs : blockComment.split? (c :: cs) with
  | none => rfl
  | some cut =>
    obtain ⟨front, rest⟩ := cut
    obtain ⟨heq, hm⟩ := split?_sound hs
    obtain ⟨body, hbody, -⟩ := blockComment_body hm
    rw [hbody] at heq
    exact absurd heq (h _)

/-- A text that does not end inside a comment that it starts with. -/
def ClosesComment (s : List Char) : Prop :=
  (∃ more, s = '/' :: '*' :: more) → (blockComment.split? s).isSome

/-- A rule takes the same from a text before a line feed, unless the text is blank or ends inside a
comment. -/
theorem split?_seam {r : Rule} (hr : r ∈ rules) {c : Char} {cs : List Char}
    (hblank : ∃ d ∈ c :: cs, Text.isBlank d = false) (hclosed : ClosesComment (c :: cs))
    (z : List Char) :
    r.pattern.split? (c :: cs ++ '\n' :: z) =
      (r.pattern.split? (c :: cs)).map fun cut => (cut.1, cut.2 ++ '\n' :: z) := by
  rcases rule_cases hr with hp | hp | ⟨havoids, hprod⟩
  · rw [hp]
    by_cases hc : Text.isBlank c = true
    · have hrun : ∀ d ∈ cs.takeWhile Text.isBlank, Text.isBlank d = true :=
        fun d hd => List.all_eq_true.mp List.all_takeWhile d hd
      have hsome : ∃ d rest, cs.dropWhile Text.isBlank = d :: rest ∧ Text.isBlank d = false := by
        obtain ⟨d, hd, hnot⟩ := hblank
        have hdrop : cs.dropWhile Text.isBlank ≠ [] := by
          intro hnil
          rcases List.mem_cons.mp hd with rfl | hd
          · rw [hc] at hnot
            cases hnot
          · rw [List.dropWhile_eq_nil_iff.mp hnil d hd] at hnot
            cases hnot
        obtain ⟨d', rest, hrest⟩ := List.exists_cons_of_ne_nil hdrop
        have hhead := List.head?_dropWhile_not Text.isBlank cs
        rw [hrest] at hhead
        exact ⟨d', rest, hrest, by simpa using hhead⟩
      obtain ⟨d, rest, hrest, hd⟩ := hsome
      have hstop : ∀ behind e, (d :: behind).head? = some e → Text.isBlank e = false := by
        intro behind e he
        obtain rfl : d = e := by simpa using he
        exact hd
      have hshort := split?_runs hc hrun (hstop rest)
      have hlong := split?_runs hc hrun (hstop (rest ++ '\n' :: z))
      have hcs : cs = cs.takeWhile Text.isBlank ++ d :: rest := by
        rw [← hrest, List.takeWhile_append_dropWhile]
      rw [hcs, blanks, many1, List.cons_append, List.append_assoc, List.cons_append, hshort, hlong]
      rfl
    · rw [List.cons_append, blanks_none (by simpa using hc), blanks_none (by simpa using hc)]
      rfl
  · rw [hp]
    cases hs : blockComment.split? (c :: cs) with
    | some cut => exact closed_split hs _
    | none =>
      have hstart : ∀ more, c :: cs ≠ '/' :: '*' :: more := by
        intro more hmore
        have := hclosed ⟨more, hmore⟩
        rw [hs] at this
        cases this
      refine blockComment_none fun more hmore => ?_
      cases cs with
      | nil =>
        obtain ⟨rfl, hrest⟩ := List.cons.inj hmore
        exact absurd (List.cons.inj hrest).1 (by decide)
      | cons d cs =>
        obtain ⟨rfl, hrest⟩ := List.cons.inj hmore
        obtain ⟨rfl, -⟩ := List.cons.inj hrest
        exact hstart cs rfl
  · exact split?_behind havoids hprod _ _

theorem firstMatch?_seam {table : List Rule} {s z : List Char}
    (h : ∀ r ∈ table, r.pattern.split? (s ++ z) =
      (r.pattern.split? s).map fun cut => (cut.1, cut.2 ++ z)) :
    firstMatch? table (s ++ z) = (firstMatch? table s).map fun m => (m.1, m.2.1, m.2.2 ++ z) := by
  induction table with
  | nil => rfl
  | cons r table ih =>
    have hr := h r (by simp)
    have hrest := ih fun r' hr' => h r' (by simp [hr'])
    cases hs : r.pattern.split? s with
    | none =>
      rw [hs] at hr
      rw [firstMatch?_skip hs, firstMatch?_skip hr, hrest]
    | some cut =>
      obtain ⟨front, rest⟩ := cut
      rw [hs] at hr
      cases front with
      | nil => simpa [firstMatch?, hs, hr] using hrest
      | cons c front => rw [firstMatch?_take hs, firstMatch?_take hr]; rfl

/-- **The next lexeme is the same before a line feed, unless the text is blank or ends inside a
comment.** -/
theorem nextLexeme_seam {c : Char} {cs : List Char}
    (hblank : ∃ d ∈ c :: cs, Text.isBlank d = false) (hclosed : ClosesComment (c :: cs))
    (z : List Char) :
    nextLexeme c (cs ++ '\n' :: z) =
      ((nextLexeme c cs).1, (nextLexeme c cs).2 ++ '\n' :: z) := by
  have hfirst := firstMatch?_seam fun r hr => split?_seam hr hblank hclosed z
  rw [List.cons_append] at hfirst
  unfold nextLexeme
  rw [hfirst]
  cases firstMatch? rules (c :: cs) <;> rfl

/-! ### Runs of the scanner -/

/-- The tokens of what is left of a text, from a place on. -/
def scan (rest : List Char) (pos : Position) : List Token :=
  (lexemes rest ⟨rest, pos⟩).filterMap toToken?

theorem lexemes_bound : ∀ (bound bound' rest : List Char) (pos : Position),
    rest.length ≤ bound.length → rest.length ≤ bound'.length →
      lexemes bound ⟨rest, pos⟩ = lexemes bound' ⟨rest, pos⟩
  | bound, bound', [], pos, _, _ => by cases bound <;> cases bound' <;> rfl
  | _ :: bound, _ :: bound', c :: cs, pos, h, h' => by
    have hle : (nextLexeme c cs).2.length ≤ cs.length := length_behind rfl
    simp only [lexemes]
    rw [lexemes_bound bound bound' _ _ (Nat.le_trans hle (Nat.le_of_succ_le_succ h))
      (Nat.le_trans hle (Nat.le_of_succ_le_succ h'))]

theorem scan_cons (c : Char) (cs : List Char) (pos : Position) :
    scan (c :: cs) pos =
      (toToken? ((nextLexeme c cs).1, ⟨pos, pos.after (nextLexeme c cs).1.text⟩)).toList ++
        scan (nextLexeme c cs).2 (pos.after (nextLexeme c cs).1.text) := by
  have hle : (nextLexeme c cs).2.length ≤ cs.length := length_behind rfl
  have hbound := lexemes_bound cs _ _ (pos.after (nextLexeme c cs).1.text) hle (Nat.le_refl _)
  simp only [scan, lexemes, List.filterMap_cons, hbound]
  cases toToken? ((nextLexeme c cs).1, ⟨pos, pos.after (nextLexeme c cs).1.text⟩) <;> rfl

theorem scan_blanks {run rest : List Char} (hrun : ∀ c ∈ run, Text.isBlank c = true)
    (hrest : ∀ d, rest.head? = some d → Text.isBlank d = false) (pos : Position) :
    scan (run ++ rest) pos = scan rest (pos.after run) := by
  cases run with
  | nil => rfl
  | cons c run =>
    obtain ⟨hc, hrun⟩ := List.forall_mem_cons.mp hrun
    rw [List.cons_append, scan_cons, nextLexeme_blanks hc hrun hrest]
    rfl

/-- A slash and, right behind it, something that starts with a star. -/
def OpensComment (ts : List Token) : Prop :=
  ∃ front t u back, ts = front ++ t :: u :: back ∧ t.kind = .punct .slash ∧
    u.value.toList.head? = some '*'

theorem OpensComment.behind {ts : List Token} (h : OpensComment ts) (before : List Token) :
    OpensComment (before ++ ts) := by
  obtain ⟨front, t, u, back, rfl, hrest⟩ := h
  exact ⟨before ++ front, t, u, back, by simp, hrest⟩

/-- What starts with a star is a token. -/
theorem star_token (more : List Char) (pos : Position) :
    ∃ u rest, scan ('*' :: more) pos = u :: rest ∧ u.value.toList.head? = some '*' := by
  obtain ⟨hsplit, hne, -⟩ := nextLexeme_sound '*' more
  obtain ⟨c, cs, htext⟩ := List.exists_cons_of_ne_nil hne
  rw [htext] at hsplit
  obtain ⟨rfl, -⟩ := List.cons.inj hsplit
  have hkind : ∃ kind, (nextLexeme '*' more).1.kind? = some kind := by
    refine Option.ne_none_iff_exists'.mp fun hnone => ?_
    have hskipped : Skipped _ (nextLexeme '*' more).2 := skipped_lexeme hnone rfl .nil
    rw [List.append_nil, htext] at hskipped
    generalize hw : '*' :: cs = w at hskipped
    cases hskipped with
    | nil => cases hw
    | @blanks run gap _ ne blank =>
      obtain ⟨d, ds, rfl⟩ := List.exists_cons_of_ne_nil ne
      obtain ⟨rfl, -⟩ := List.cons.inj hw
      exact absurd (blank '*' (by simp)) (by decide)
    | line => exact absurd (List.cons.inj hw).1 (by decide)
    | closed => exact absurd (List.cons.inj hw).1 (by decide)
  obtain ⟨kind, hkind⟩ := hkind
  rw [scan_cons]
  refine ⟨_, _, by simp only [toToken?, hkind]; rfl, ?_⟩
  simp [htext]

/-- A comment that is not closed is read as a slash and more. -/
theorem opensComment_of_none {more : List Char}
    (h : blockComment.split? ('/' :: '*' :: more) = none) (pos : Position) :
    OpensComment (scan ('/' :: '*' :: more) pos) := by
  have hline : lineComment.split? ('/' :: '*' :: more) = none := by
    simp [lineComment, char, split?, Pattern.run]
  have hnext : nextLexeme '/' ([] ++ '*' :: more) =
      (⟨some (.token (.punct .slash)), ['/']⟩, '*' :: more) := by
    refine nextLexeme_mark rfl (fun d hd q hq => ?_) ⟨hline, h⟩
    obtain rfl : '*' = d := by simpa using hd
    exact absurd (Punct.mem_of_continues hq) (by decide)
  rw [List.nil_append] at hnext
  obtain ⟨u, rest, hscan, hu⟩ := star_token more (pos.after ['/'])
  rw [scan_cons, hnext, hscan]
  exact ⟨[], _, u, rest, rfl, rfl, hu⟩

/-- **The tokens of a text come first in a text that goes on behind its line**, unless the text ends
inside a comment. -/
theorem scan_seam {z : List Char} (hz : ∀ d, z.head? = some d → Text.isBlank d = false) :
    ∀ (n : Nat) (s : List Char) (pos : Position), s.length ≤ n →
      scan (s ++ '\n' :: z) pos = scan s pos ++ scan z (pos.after (s ++ ['\n'])) ∨
        OpensComment (scan s pos) := by
  have hend : ∀ {s : List Char} {pos : Position}, (∀ c ∈ s, Text.isBlank c = true) →
      scan (s ++ '\n' :: z) pos = scan s pos ++ scan z (pos.after (s ++ ['\n'])) := by
    intro s pos hs
    have hshort : scan (s ++ []) pos = [] := scan_blanks hs (by simp) pos
    have hlong : scan (s ++ ['\n'] ++ z) pos = scan z (pos.after (s ++ ['\n'])) := by
      refine scan_blanks (fun c hc => ?_) hz pos
      rcases List.mem_append.mp hc with hc | hc
      · exact hs c hc
      · obtain rfl : c = '\n' := by simpa using hc
        decide
    rw [List.append_nil] at hshort
    rw [List.append_assoc] at hlong
    rw [hshort]
    exact hlong
  intro n
  induction n with
  | zero =>
    intro s pos hn
    obtain rfl : s = [] := List.length_eq_zero_iff.mp (Nat.le_zero.mp hn)
    exact Or.inl (hend (by simp))
  | succ n ih =>
    intro s pos hn
    cases s with
    | nil => exact Or.inl (hend (by simp))
    | cons c cs =>
      by_cases hblank : ∃ d ∈ c :: cs, Text.isBlank d = false
      · by_cases hclosed : ClosesComment (c :: cs)
        · -- One lexeme is taken from both texts, and the rest is shorter.
          obtain ⟨hsplit, -, -⟩ := nextLexeme_sound c cs
          have hle : (nextLexeme c cs).2.length ≤ cs.length := length_behind rfl
          have hpos : (pos.after (nextLexeme c cs).1.text).after ((nextLexeme c cs).2 ++ ['\n']) =
              pos.after (c :: cs ++ ['\n']) := by
            rw [← Position.after_append, ← List.append_assoc, ← hsplit]
          rw [List.cons_append, scan_cons, scan_cons, nextLexeme_seam hblank hclosed]
          rw [List.length_cons] at hn
          rcases ih (nextLexeme c cs).2 (pos.after (nextLexeme c cs).1.text) (by omega) with
            heq | hopen
          · left
            rw [heq, hpos, List.append_assoc]
          · exact Or.inr (hopen.behind _)
        · unfold ClosesComment at hclosed
          simp only [Classical.not_imp, Option.not_isSome_iff_eq_none] at hclosed
          obtain ⟨⟨more, hmore⟩, hnone⟩ := hclosed
          rw [hmore] at hnone ⊢
          exact Or.inr (opensComment_of_none hnone pos)
      · left
        refine hend fun d hd => ?_
        cases hb : Text.isBlank d with
        | true => rfl
        | false => exact absurd ⟨d, hd, hb⟩ hblank

theorem scan_semicolon (z : List Char) (pos : Position) :
    scan (';' :: z) pos =
      ⟨.punct .semicolon, ";", ⟨pos, pos.after [';']⟩⟩ :: scan z (pos.after [';']) := by
  have hnext : nextLexeme ';' ([] ++ z) = _ :=
    nextLexeme_punct (p := .semicolon) rfl (Punct.ends_self (by decide) z)
  rw [List.nil_append] at hnext
  rw [scan_cons, hnext]
  rfl

end Lexical

open Lexical

/-- The tokens of a text come first when it goes on with a line that starts with no blank, unless
the text ends inside a comment. -/
theorem tokens_behind_line {front whole : String} {z : List Char}
    (hwhole : whole.toList = front.toList ++ '\n' :: z)
    (hz : ∀ d, z.head? = some d → Text.isBlank d = false) :
    tokens whole = tokens front ++ scan z (Position.origin.after (front.toList ++ ['\n'])) ∨
      OpensComment (tokens front) := by
  have hscan : tokens whole = scan (front.toList ++ '\n' :: z) .origin := by
    rw [tokens, Cursor.ofString, hwhole]
    rfl
  rw [hscan]
  exact scan_seam hz _ front.toList .origin (Nat.le_refl _)

/-- **The tokens of a text come first when a line with a semicolon and more text stand behind it**,
unless the text ends inside a comment. -/
theorem tokens_seam (front back : String) :
    (∃ (semicolon : Token) (more : List Token), semicolon.kind = .punct .semicolon ∧
      tokens (front ++ "\n;\n" ++ back) = tokens front ++ semicolon :: more) ∨
      OpensComment (tokens front) := by
  have htext : (front ++ "\n;\n" ++ back).toList =
      front.toList ++ '\n' :: ';' :: '\n' :: back.toList := by
    simp [String.toList_append]
  have hsemicolon : ∀ d, (';' :: '\n' :: back.toList).head? = some d → Text.isBlank d = false := by
    intro d hd
    obtain rfl : ';' = d := by simpa using hd
    decide
  rcases tokens_behind_line htext hsemicolon with heq | hopen
  · left
    rw [heq, scan_semicolon]
    exact ⟨_, _, rfl, rfl⟩
  · exact Or.inr hopen

end BlockC
