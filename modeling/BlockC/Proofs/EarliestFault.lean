import BlockC.Proofs.Completion
import BlockC.Proofs.TreeContract

/-! # Faults are found at the earliest token

The tree of a text is in order, or ends in an error that holds all tokens from some point on, or
ends in a placeholder (`parse_cases`).  The tokens that were taken before a fault can always go on
to a program in order (`exists_longer`), and a token that is refused is refused behind all tokens of
the same kinds (`not_clean_of_stuck`), so no fault can be found earlier (`faults_are_earliest`).
-/
namespace BlockC

open List (Forall₂)

/-- The kinds of the tokens of a text. -/
def kinds (source : String) : List Kind :=
  (tokens source).map (·.kind)

namespace Grammar

/-- The tree of the text ends in an error, which holds the tokens from the given one on. -/
def EndsInError (source : String) (i : Nat) : Prop :=
  i < (tokens source).length ∧ ∃ before, (parse source).children =
    before ++ [.assemble Node.errorKind .origin (((tokens source).drop i).map Node.leaf)]

/-- The tree of the text ends in a placeholder. -/
def EndsInPlaceholder (source : String) : Prop :=
  ∃ before n, (parse source).children = before ++ [n] ∧ n.head.missing = true

/-! ### The end of a run -/

theorem kind_ne_eof_of_mem_tokens {source : String} {t : Token} (h : t ∈ tokens source) :
    t.kind ≠ .eof := by
  intro hk
  have hlexeme := (standsIn_of_mem_tokens h).lexeme
  rw [hk] at hlexeme
  exact hlexeme

/-- A text is taken up to a token that the stack refuses, or to its end. -/
theorem run_ends (source : String) :
    ∃ taken rest last place, tokens source = taken ++ rest ∧ Takes taken [sourceFile] last ∧
      place.index = taken.length ∧ place.last = taken.getLast? ∧
      drive (Stream.ofString source) [sourceFile] (tokens source) = drive place last rest ∧
      ((∃ t behind request pending, rest = t :: behind ∧ feed t last = .stuck request pending) ∨
      (∃ request pending, rest = [] ∧ feed (.eof place.stop) last = .stuck request pending) ∨
      (∃ root, rest = [] ∧ feed (.eof place.stop) last = .done root)) := by
  obtain ⟨taken, rest, last, place, htokens, htakes, hstop, hindex, hlast, hdrive⟩ :=
    drive_run (Stream.ofString source) [sourceFile] (tokens source)
  have hindex : place.index = taken.length := by
    rw [hindex]
    exact Nat.zero_add _
  have hlast : place.last = taken.getLast? := by
    rw [hlast]
    exact Option.or_none
  have hresting := (htakes.resting resting_sourceFile).2
  obtain ⟨f, below, rfl⟩ : ∃ f below, last = f :: below := by
    cases hresting <;> exact ⟨_, _, rfl⟩
  refine ⟨taken, rest, _, place, htokens, htakes, hindex, hlast, hdrive, ?_⟩
  cases rest with
  | nil =>
    cases hfeed : feed (.eof place.stop) (f :: below) with
    | done root => exact Or.inr (Or.inr ⟨root, rfl, rfl⟩)
    | stuck request pending => exact Or.inr (Or.inl ⟨request, pending, rfl, rfl⟩)
    | shift next => exact absurd rfl (feed_resting hresting hfeed).1.1
  | cons t behind =>
    cases hfeed : feed t (f :: below) with
    | shift next => exact absurd hfeed (hstop t rfl next)
    | stuck request pending => exact Or.inl ⟨t, behind, request, pending, rfl, hfeed⟩
    | done root =>
      have hmem : t ∈ tokens source := by simp [htokens]
      exact absurd (feed_done hresting hfeed).1 (kind_ne_eof_of_mem_tokens hmem)

/-- What a run of a text leads to. -/
theorem run_of_source (source : String) :
    ∃ taken rest last, tokens source = taken ++ rest ∧ Takes taken [sourceFile] last ∧
      ((∃ t behind request pending, rest = t :: behind ∧ feed t last = .stuck request pending ∧
        (drive (Stream.ofString source) [sourceFile] (tokens source)).result =
          .error (.unexpected taken.length)) ∨
      (rest = [] ∧ ∃ kind named pos,
        (drive (Stream.ofString source) [sourceFile] (tokens source)).result =
          .error (.missing kind named pos)) ∨
      (rest = [] ∧ ∃ root,
        (drive (Stream.ofString source) [sourceFile] (tokens source)).result = .ok root)) := by
  obtain ⟨taken, rest, last, place, htokens, htakes, hindex, -, hdrive, hcases⟩ := run_ends source
  refine ⟨taken, rest, last, htokens, htakes, ?_⟩
  rw [hdrive]
  rcases hcases with ⟨t, behind, request, pending, rfl, hfeed⟩ |
    ⟨request, pending, rfl, hfeed⟩ | ⟨root, rfl, hfeed⟩
  · refine Or.inl ⟨t, behind, request, pending, rfl, hfeed, ?_⟩
    rw [drive, hfeed, ← hindex]
    rfl
  · refine Or.inr (Or.inl ⟨rfl, ?_⟩)
    rw [drive, hfeed]
    exact ⟨_, _, _, rfl⟩
  · refine Or.inr (Or.inr ⟨rfl, root, ?_⟩)
    rw [drive, hfeed]

/-! ### What the tree shows of it -/

theorem not_clean_of_error {source : String} {fault : Fault}
    (h : (drive (Stream.ofString source) [sourceFile] (tokens source)).result = .error fault) :
    ¬ (parse source).Clean := by
  intro hclean
  have hok := result_of_clean hclean
  rw [h] at hok
  cases hok

/-- A text that is read to its end has a tree in order. -/
theorem clean_of_ok {source : String} {root : Node} {last : Stack}
    (htakes : Takes (tokens source) [sourceFile] last)
    (h : (drive (Stream.ofString source) [sourceFile] (tokens source)).result = .ok root) :
    (parse source).Clean := by
  rw [parse_of_ok h]
  exact clean_of_drive (fun t ht => ((htakes.resting resting_sourceFile).1 t ht).2) h

theorem children_of_error {source : String} {fault : Fault}
    (h : (drive (Stream.ofString source) [sourceFile] (tokens source)).result = .error fault) :
    (parse source).children =
      Stack.outermost (drive (Stream.ofString source) [sourceFile] (tokens source)).pending ++
        [fault.record (tokens source)] := by
  rw [parse_of_error h]
  rfl

/-- All tokens of a text in order are taken, and its end completes the tree. -/
theorem reading_of_clean {source : String} (h : (parse source).Clean) :
    ∃ last stop, Takes (tokens source) [sourceFile] last ∧
      feed (.eof stop) last = .done (parse source) := by
  have hok := result_of_clean h
  obtain ⟨taken, rest, last, place, htokens, htakes, -, -, hdrive, hcases⟩ := run_ends source
  rw [hdrive] at hok
  rcases hcases with ⟨t, behind, request, pending, rfl, hfeed⟩ |
    ⟨request, pending, rfl, hfeed⟩ | ⟨root, rfl, hfeed⟩
  · rw [drive, hfeed] at hok
    cases hok
  · rw [drive, hfeed] at hok
    cases hok
  · rw [drive, hfeed] at hok
    rw [List.append_nil] at htokens
    cases hok
    exact ⟨last, place.stop, htokens ▸ htakes, hfeed⟩

/-- The last node of a tree that is in order is neither an error nor a placeholder. -/
theorem not_clean_of_last {n root : Node} {before : List Node} (h : root.children = before ++ [n])
    (hn : n.head.missing = true ∨ n.head.error = true) : ¬ root.Clean := by
  intro hclean
  obtain ⟨head, children⟩ := root
  have hlast : n.Clean := Node.allClean_iff.mp hclean.2.2 n (by simp_all)
  obtain ⟨head', children'⟩ := n
  rcases hn with hn | hn
  · exact absurd hlast.1 (by simpa using hn)
  · exact absurd hlast.2.1 (by simpa using hn)

theorem EndsInError.not_clean {source : String} {i : Nat} (h : EndsInError source i) :
    ¬ (parse source).Clean := by
  obtain ⟨-, before, hchildren⟩ := h
  exact not_clean_of_last hchildren (Or.inr rfl)

theorem EndsInPlaceholder.not_clean {source : String} (h : EndsInPlaceholder source) :
    ¬ (parse source).Clean := by
  obtain ⟨before, n, hchildren, hn⟩ := h
  exact not_clean_of_last hchildren (Or.inl hn)

/-- An error starts with the token that was refused. -/
theorem EndsInError.index {source : String} {i j : Nat} (h : EndsInError source i)
    (hj : j < (tokens source).length)
    (hr : (drive (Stream.ofString source) [sourceFile] (tokens source)).result =
      .error (.unexpected j)) : i = j := by
  obtain ⟨hi, before, hchildren⟩ := h
  rw [children_of_error hr] at hchildren
  have hlast := List.append_inj_right' hchildren rfl
  have hleaves := congrArg (fun ns => (ns.map fun n : Node => n.children.length)) hlast
  simp [Fault.record, Node.assemble] at hleaves
  omega

/-- A text ends in an error exactly if a token was refused, and in a placeholder if its end was. -/
theorem parse_cases (source : String) :
    ∃ taken rest last, tokens source = taken ++ rest ∧ Takes taken [sourceFile] last ∧
      (((parse source).Clean ∧ (∀ i, ¬ EndsInError source i) ∧ ¬ EndsInPlaceholder source) ∨
      (∃ t behind request pending, rest = t :: behind ∧ feed t last = .stuck request pending ∧
        EndsInError source taken.length ∧ ¬ EndsInPlaceholder source ∧
        ∀ i, EndsInError source i → i = taken.length) ∨
      (rest = [] ∧ EndsInPlaceholder source ∧ ∀ i, ¬ EndsInError source i)) := by
  obtain ⟨taken, rest, last, htokens, htakes, hcases⟩ := run_of_source source
  refine ⟨taken, rest, last, htokens, htakes, ?_⟩
  rcases hcases with ⟨t, behind, request, pending, rfl, hstuck, hr⟩ |
    ⟨rfl, kind, named, pos, hr⟩ | ⟨rfl, root, hr⟩
  · have hlength : taken.length < (tokens source).length := by
      rw [htokens]
      simp
    have hends : EndsInError source taken.length :=
      ⟨hlength, _, children_of_error hr⟩
    refine Or.inr (Or.inl ⟨t, behind, request, pending, rfl, hstuck, hends, ?_,
      fun i hi => hi.index hlength hr⟩)
    rintro ⟨before, n, hchildren, hn⟩
    rw [children_of_error hr] at hchildren
    obtain rfl := List.singleton_inj.mp (List.append_inj_right' hchildren rfl)
    cases hn
  · refine Or.inr (Or.inr ⟨rfl, ⟨_, _, children_of_error hr, rfl⟩, ?_⟩)
    rintro i ⟨-, before, hchildren⟩
    rw [children_of_error hr] at hchildren
    have hlast := List.singleton_inj.mp (List.append_inj_right' hchildren rfl)
    have hmissing := congrArg (fun n : Node => n.head.missing) hlast
    cases hmissing
  · rw [List.append_nil] at htokens
    have hclean := clean_of_ok (htokens ▸ htakes) hr
    exact Or.inl ⟨hclean, fun i hi => hi.not_clean hclean, fun hp => hp.not_clean hclean⟩

/-! ### The tokens before a fault -/

/-- Tokens that lead from the start to the end of the file make a text in order. -/
theorem clean_of_finished {source : String} {ts : List Token} (h : Finished ts [sourceFile])
    (hkinds : ts.map (·.kind) = kinds source) : (parse source).Clean := by
  obtain ⟨last, htakes, hdone⟩ := h
  obtain ⟨last', htakes', halike⟩ := htakes.alike (alike_of_kinds hkinds) alike_sourceFile
  obtain ⟨place, hstop, hdrive⟩ := drive_of_takes htakes' [] (Stream.ofString source)
  have heof : EndOfText (.eof place.stop) := rfl
  obtain ⟨root, hroot⟩ := hdone _ heof
  have hstep : Step.Alike _ _ (.eof place.stop) (.eof place.stop) _ _ := feed_alike rfl halike
  rw [hroot] at hstep
  cases hfeed : feed (.eof place.stop) last' <;> rw [hfeed] at hstep <;>
    first | exact hstep.elim | skip
  rename_i root'
  rw [List.append_nil] at hdrive
  have hr : (drive (Stream.ofString source) [sourceFile] (tokens source)).result = .ok root' := by
    rw [hdrive, drive, hfeed]
  exact clean_of_ok htakes' hr

/-- **Tokens of a text that are taken can go on to a program in order.** -/
theorem exists_longer {source : String} {taken : List Token} {last : Stack}
    (hmem : ∀ t ∈ taken, t ∈ tokens source) (h : Takes taken [sourceFile] last) :
    ∃ longer, taken.map Token.word <+: words longer ∧ (parse longer).Clean := by
  obtain ⟨hknown, hlast⟩ := h.resting resting_sourceFile
  obtain ⟨ts, hspelled, final, hfinal, hdone⟩ := hlast.finish
  have hall : ∀ w ∈ (taken ++ ts).map Token.word, w.Spelled := by
    intro w hw
    obtain ⟨t, ht, rfl⟩ := List.mem_map.mp hw
    rcases List.mem_append.mp ht with ht | ht
    · exact ⟨(standsIn_of_mem_tokens (hmem t ht)).lexeme, (hknown t ht).2⟩
    · exact hspelled t ht
  have hwords := Lexical.words_spaced hall
  refine ⟨Plain.spaced ((taken ++ ts).map Token.word), ?_, ?_⟩
  · rw [words, hwords, List.map_append]
    exact List.prefix_append _ _
  · refine clean_of_finished ⟨final, h.append hfinal, hdone⟩ ?_
    have hkinds := congrArg (List.map Prod.fst) hwords
    rw [List.map_map, List.map_map] at hkinds
    exact hkinds.symm

/-- **A token that is refused is refused behind all tokens of the same kinds.** -/
theorem not_clean_of_stuck {source : String} {taken : List Token} {t : Token} {last pending : Stack}
    {request : Request} (h : Takes taken [sourceFile] last)
    (hstuck : feed t last = .stuck request pending)
    (hkinds : (taken ++ [t]).map (·.kind) <+: kinds source) : ¬ (parse source).Clean := by
  obtain ⟨more, hmore⟩ := hkinds
  obtain ⟨front, behind, htokens, hfront, -⟩ := List.map_eq_append_iff.mp hmore.symm
  rw [List.map_append] at hfront
  obtain ⟨taken', ts, rfl, htaken, hlast⟩ := List.map_eq_append_iff.mp hfront
  obtain ⟨t', rfl, hk⟩ := List.map_eq_singleton_iff.mp hlast
  obtain ⟨last', htakes', halike⟩ := h.alike (alike_of_kinds htaken.symm) alike_sourceFile
  have hstep := feed_alike hk.symm halike
  rw [hstuck] at hstep
  cases hfeed : feed t' last' <;> rw [hfeed] at hstep <;> first | exact hstep.elim | skip
  obtain ⟨place, -, hdrive⟩ :=
    drive_of_takes htakes' (t' :: behind) (Stream.ofString source)
  have hr : (drive (Stream.ofString source) [sourceFile] (tokens source)).result =
      .error (.unexpected place.index) := by
    rw [htokens, List.append_assoc]
    change (drive _ _ (taken' ++ t' :: behind)).result = _
    rw [hdrive, drive, hfeed]
    rfl
  exact not_clean_of_error hr

end Grammar

open Grammar

/-- **Faults are found at the earliest token.** The tree of a text is in order unless it ends in an
error or a placeholder.  The tokens before an error can go on to a program in order, which they
cannot once the first token of the error is added; all tokens before a placeholder can. -/
theorem faults_are_earliest (source : String) :
    ((parse source).Clean ↔ (∀ i, ¬ EndsInError source i) ∧ ¬ EndsInPlaceholder source) ∧
    (∀ i, EndsInError source i →
      (∃ longer, (words source).take i <+: words longer ∧ (parse longer).Clean) ∧
      ∀ other, (kinds source).take (i + 1) <+: kinds other → ¬ (parse other).Clean) ∧
    (EndsInPlaceholder source →
      ∃ longer, words source <+: words longer ∧ (parse longer).Clean) := by
  obtain ⟨taken, rest, last, htokens, htakes, hcases⟩ := parse_cases source
  have hmem : ∀ t ∈ taken, t ∈ tokens source := by
    intro t ht
    rw [htokens]
    exact List.mem_append_left _ ht
  obtain ⟨longer, hlonger, hclean⟩ := exists_longer hmem htakes
  refine ⟨?_, fun i hi => ?_, fun hp => ?_⟩
  · refine ⟨fun h => ⟨fun i hi => hi.not_clean h, fun hp => hp.not_clean h⟩, ?_⟩
    rintro ⟨herror, hplace⟩
    rcases hcases with ⟨h, -⟩ | ⟨-, -, -, -, -, -, h, -⟩ | ⟨-, h, -⟩
    · exact h
    · exact absurd h (herror _)
    · exact absurd h hplace
  · rcases hcases with ⟨-, h, -⟩ | ⟨t, behind, request, pending, rfl, hstuck, -, -, hindex⟩ |
      ⟨-, -, h⟩
    · exact absurd hi (h i)
    · obtain rfl := hindex i hi
      refine ⟨⟨longer, ?_, hclean⟩, fun other hother => ?_⟩
      · have htake : (words source).take taken.length = taken.map Token.word := by
          simp [words, htokens]
        rw [htake]
        exact hlonger
      · have htake : (kinds source).take (taken.length + 1) = (taken ++ [t]).map (·.kind) := by
          simp [kinds, htokens, List.take_append, List.take_of_length_le]
        rw [htake] at hother
        exact not_clean_of_stuck htakes hstuck hother
    · exact absurd hi (h i)
  · rcases hcases with ⟨-, -, h⟩ | ⟨-, -, -, -, -, -, -, h, -⟩ | ⟨rfl, -, -⟩
    · exact absurd hp h
    · exact absurd hp h
    · rw [List.append_nil] at htokens
      rw [← htokens] at hlonger
      exact ⟨longer, hlonger, hclean⟩

/-- A parenthesis that nothing opened is an error, though `let x: i32 = a` can go on; a `while` with
nothing behind it lacks a placeholder only. -/
theorem faults_are_earliest_sample :
    (EndsInError "let x : i32 = a )" 6 ∧
      (∃ longer, (words "let x : i32 = a )").take 6 <+: words longer ∧ (parse longer).Clean) ∧
      ∀ other, (kinds "let x : i32 = a )").take 7 <+: kinds other → ¬ (parse other).Clean) ∧
    EndsInPlaceholder "while" ∧
      ∃ longer, words "while" <+: words longer ∧ (parse longer).Clean := by
  have herror : EndsInError "let x : i32 = a )" 6 := ⟨by decide, _, rfl⟩
  have hplace : EndsInPlaceholder "while" := ⟨_, _, rfl, rfl⟩
  exact ⟨⟨herror, (faults_are_earliest _).2.1 6 herror⟩, hplace,
    (faults_are_earliest _).2.2 hplace⟩

end BlockC
