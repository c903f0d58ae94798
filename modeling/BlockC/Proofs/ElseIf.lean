import Mathlib.Data.List.Nodup
import BlockC.Proofs.LayoutIndependence
import BlockC.Proofs.TextPartition
import BlockC.Proofs.TokenLines
import BlockC.Proofs.UnfoldedRun

/-! # `else if` is short for a block

A further `if` behind `else` can be written out: `do` before it and `end` behind it make it the only
statement of a block (`WritesOut`).  The text with these two words more is in order again, and its
tree is that of the first text, unfolded (`parse_unfolded`).  So the two texts are read as the same
statements (`stmts_of_writesOut`), and are bound and written in the same way (`else_if_is_sugar`).

Leaves tell where a node stands, since no two tokens of a text have the same place (`nodup_spans`).
-/
namespace BlockC

open Grammar

/-- The second text has the words of the first, and the words of the node stand between `do` and
`end`. -/
def WritesOut (n : Node) (source source' : String) : Prop :=
  ∃ front chain back, tokens source = front ++ chain ++ back ∧
    n.leaves.map Node.span = chain.map Token.span ∧
    words source' = front.map Token.word ++ Keyword.doKw.word :: chain.map Token.word ++
      Keyword.endKw.word :: back.map Token.word

/-! ### Leaves and places -/

/-- No two tokens of a text have the same place. -/
theorem nodup_spans (source : String) : ((tokens source).map Token.span).Nodup := by
  have hlaid := laid_tokenize source
  have hordered : ((tokens source).map Token.span).Pairwise Span.Before := by
    have hall := hlaid.ordered.1
    rw [tokenize, List.map_append] at hall
    exact (List.pairwise_append.mp hall).1
  have hwidth : ∀ t ∈ tokens source, t.span.start.offset < t.span.stop.offset := by
    obtain ⟨front, hfront, hcut⟩ := hlaid.cut rfl
    obtain ⟨rfl, -⟩ := List.append_inj' hfront rfl
    exact fun t ht => (hcut t ht).width
  refine List.pairwise_map.mpr ((List.pairwise_map.mp hordered).imp_of_mem ?_)
  intro t u ht _ hbefore hspan
  have hlt := hwidth t ht
  have hle : t.span.stop.offset ≤ u.span.start.offset := hbefore
  rw [← hspan] at hle
  omega

theorem nodup_leaves (source : String) : ((tokens source).map Node.leaf).Nodup := by
  have hspans : (((tokens source).map Node.leaf).map Node.span).Nodup := by
    rw [List.map_map]
    exact nodup_spans source
  exact hspans.of_map

/-- An element that occurs once parts a list in one way. -/
theorem parts_of_nodup {α : Type} {x : α} {before behind before' behind' : List α}
    (hnodup : (before ++ x :: behind).Nodup) (h : before ++ x :: behind = before' ++ x :: behind') :
    before = before' ∧ behind = behind' := by
  have hnot : x ∉ before ∧ x ∉ behind := by
    have hmiddle := List.nodup_middle.mp hnodup
    simpa using (List.nodup_cons.mp hmiddle).1
  obtain ⟨hbefore, -, hbehind⟩ := (List.append_cons_inj_of_notMem hnot.1 hnot.2).mp h
  exact ⟨hbefore, hbehind⟩

theorem Node.fringe_ne_nil : ∀ n : Node, n.fringe ≠ []
  | .mk _ [] => List.cons_ne_nil _ _
  | .mk head (c :: cs) => by
    rw [fringe_mk head (List.cons_ne_nil c cs), fringeOf_cons]
    exact List.append_ne_nil_of_left_ne_nil (fringe_ne_nil c) _

theorem Node.map_span_fringe (n : Node) : n.fringe.map span = n.leaves.map span := by
  simp only [fringe, List.map_map]
  rfl

namespace Grammar

section
variable {t : Token} {ts : List Token} {root : Node}

/-- The leaves of a tree are the tokens of its run. -/
theorem Yields.fringe (h : Yields t [sourceFile] ts root) (hts : ts ≠ []) :
    root.fringe = ts.map Node.leaf := by
  obtain ⟨last, htakes, hdone⟩ := h
  have hstart : Carries [sourceFile] [] := .file (by simp)
  have hkeeps := feed_keeps (t := t) (htakes.carries hstart)
  rw [hdone] at hkeeps
  obtain ⟨stmts, rfl, -, hfringe⟩ := hkeeps
  have hstmts : stmts ≠ [] := by
    rintro rfl
    exact hts (by simpa using hfringe)
  rw [Node.fringe_assemble _ _ hstmts, hfringe, List.nil_append]

theorem Yields.wellPlaced (h : Yields t [sourceFile] ts root) : root.WellPlaced := by
  obtain ⟨last, htakes, hdone⟩ := h
  exact wellPlaced_of_takes htakes hdone

end

section
variable {source source' : String}

/-- A run over all tokens of a text that ends with a tree gives the tree of the text. -/
theorem parse_of_yields {root : Node}
    (h : Yields (.eof (endOfText source)) [sourceFile] (tokens source) root) :
    parse source = root ∧ (parse source).Clean := by
  obtain ⟨last, htakes, hdone⟩ := h
  obtain ⟨place, hstop, hdrive⟩ := drive_of_takes htakes [] (Stream.ofString source)
  rw [List.append_nil] at hdrive
  have hok : (drive (Stream.ofString source) [sourceFile] (tokens source)).result = .ok root := by
    rw [hdrive, drive, hstop]
    simp only [show (Stream.ofString source).stop = endOfText source from rfl, hdone]
  exact ⟨parse_of_ok hok, clean_of_ok htakes hok⟩

theorem fringe_of_clean (h : (parse source).Clean) (hts : tokens source ≠ []) :
    (parse source).fringe = (tokens source).map Node.leaf := by
  obtain ⟨last, stop, htakes, hdone⟩ := reading_of_clean h
  exact Yields.fringe ⟨last, htakes, hdone⟩ hts

/-- Tokens with the words of a text in order are read as the text is. -/
theorem yields_of_words (hclean : (parse source).Clean) {ts : List Token}
    (hwords : (tokens source).map Token.word = ts.map Token.word)
    (hts : ∀ t ∈ ts, t.StandsIn source'.toUTF8) (stop : Position) :
    ∃ root, Yields (.eof stop) [sourceFile] ts root ∧
      (parse source).Twin nowhere source.toUTF8 source'.toUTF8 root := by
  obtain ⟨last, stop₀, htakes, hdone⟩ := reading_of_clean hclean
  have halike := alike_of_words hwords (fun t ht => standsIn_of_mem_tokens ht) hts
  obtain ⟨last', htakes', hlast⟩ := htakes.alike halike alike_sourceFile
  have hkind : (Token.eof stop₀).kind = (Token.eof stop).kind := rfl
  have hstep := feed_alike hkind hlast
  rw [hdone] at hstep
  cases hdone' : feed (.eof stop) last' with
  | shift next | stuck request pending =>
    rw [hdone'] at hstep
    exact hstep.elim
  | done root =>
    rw [hdone'] at hstep
    exact ⟨root, ⟨last', htakes', hdone'⟩, hstep, legible_of_drive (result_of_clean hclean)⟩

/-! ### The tree of the text with the block -/

/-- As many leaves come before a node in the tree as tokens come before it in the text. -/
theorem length_of_occurs {n : Node} {front chain back : List Token} {before behind : List Node}
    (hclean : (parse source).Clean) (htokens : tokens source = front ++ chain ++ back)
    (hchain : n.leaves.map Node.span = chain.map Token.span)
    (h : n.Occurs (parse source) before behind) : before.length = front.length := by
  have hsome : chain ≠ [] := by
    rintro rfl
    rw [← n.map_span_fringe] at hchain
    exact n.fringe_ne_nil (List.map_eq_nil_iff.mp hchain)
  obtain ⟨first, rest, rfl⟩ := List.exists_cons_of_ne_nil hsome
  have hspans : (parse source).fringe.map Node.span = (tokens source).map Token.span := by
    rw [fringe_of_clean hclean (by simp [htokens]), List.map_map]
    rfl
  have hnodup := nodup_spans source
  rw [h.fringe, List.map_append, List.map_append, n.map_span_fringe, hchain, htokens] at hspans
  rw [htokens, ← hspans] at hnodup
  simp only [List.map_append, List.map_cons, List.append_assoc, List.cons_append] at hspans hnodup
  simpa using congrArg List.length (parts_of_nodup hnodup hspans).1

/-- The tokens of a text with two words among others. -/
theorem tokens_between {ws vs us : List Word} {w v : Word}
    (h : words source = ws ++ w :: vs ++ v :: us) :
    ∃ (front : List Token) (d : Token) (chain : List Token) (e : Token) (back : List Token),
      tokens source = front ++ d :: chain ++ e :: back ∧
      front.map Token.word = ws ∧ d.word = w ∧ chain.map Token.word = vs ∧ e.word = v ∧
      back.map Token.word = us := by
  obtain ⟨before, behind, htokens, hbefore, hbehind⟩ := List.map_eq_append_iff.mp h
  obtain ⟨front, inner, rfl, hfront, hinner⟩ := List.map_eq_append_iff.mp hbefore
  obtain ⟨d, chain, rfl, hd, hchain⟩ := List.map_eq_cons_iff.mp hinner
  obtain ⟨e, back, rfl, he, hback⟩ := List.map_eq_cons_iff.mp hbehind
  exact ⟨front, d, chain, e, back, htokens, hfront, hd, hchain, he, hback⟩

/-- Where the leaves before a node and those of the node are counted, they are known. -/
theorem Yields.leaves {t : Token} {front chain back : List Token} {root m : Node}
    {before behind : List Node} (h : Yields t [sourceFile] (front ++ chain ++ back) root)
    (hm : m.Occurs root before behind) (hfront : before.length = front.length)
    (hchain : m.fringe.length = chain.length) :
    before = front.map Node.leaf ∧ m.fringe = chain.map Node.leaf ∧
      behind = back.map Node.leaf := by
  have hsome : front ++ chain ++ back ≠ [] := by
    intro hnil
    obtain rfl : chain = [] := (List.append_eq_nil_iff.mp (List.append_eq_nil_iff.mp hnil).1).2
    exact m.fringe_ne_nil (List.eq_nil_of_length_eq_zero hchain)
  have hleaves := hm.fringe.symm.trans (h.fringe hsome)
  rw [List.map_append, List.map_append, List.append_assoc, List.append_assoc] at hleaves
  obtain ⟨hbefore, hrest⟩ := List.append_inj hleaves (by simpa using hfront)
  exact ⟨hbefore, List.append_inj hrest (by simpa using hchain)⟩

/-- Tokens are those of a text if their leaves are, and if they are the same without the two
words. -/
theorem parts_of_leaves {front chain back fs cs bs : List Token} {d e : Token}
    (htokens : tokens source = front ++ d :: chain ++ e :: back)
    (hsame : front ++ chain ++ back = fs ++ cs ++ bs)
    (h : (fs ++ d :: cs ++ e :: bs).map Node.leaf = (tokens source).map Node.leaf) :
    fs ++ d :: cs ++ e :: bs = tokens source := by
  have hnodup := nodup_leaves source
  rw [htokens] at h hnodup
  simp only [List.map_append, List.map_cons, List.append_assoc, List.cons_append] at h hnodup
  obtain ⟨hfs, hrest⟩ := parts_of_nodup hnodup h.symm
  have hlater := (List.nodup_cons.mp (List.nodup_append.mp hnodup).2.1).2
  obtain ⟨hcs, -⟩ := parts_of_nodup hlater hrest
  have hfront : front.length = fs.length := by simpa using congrArg List.length hfs
  have hchain : chain.length = cs.length := by simpa using congrArg List.length hcs
  rw [List.append_assoc, List.append_assoc] at hsame
  obtain ⟨rfl, hinner⟩ := List.append_inj hsame hfront
  obtain ⟨rfl, rfl⟩ := List.append_inj hinner hchain
  exact htokens.symm

/-- The text is read with the two words as it is without them, and the tree is unfolded there. -/
theorem parse_of_unfolds {front chain back : List Token} {d e : Token} {root root' : Node}
    (hd : d.kind = .keyword .doKw) (he : e.kind = .keyword .endKw)
    (htokens : tokens source = front ++ d :: chain ++ e :: back)
    (hrun : Yields (.eof (endOfText source)) [sourceFile] (front ++ chain ++ back) root)
    (hroot : root.Unfolds d e root') (hfringe : root'.fringe = (tokens source).map Node.leaf) :
    parse source = root' ∧ (parse source).Clean := by
  obtain ⟨fs, cs, bs, hparts, hrun'⟩ := exists_replay hd he hrun hroot
  have hleaves := (hrun'.fringe (by simp)).symm.trans hfringe
  rw [parts_of_leaves htokens hparts hleaves] at hrun'
  exact parse_of_yields hrun'

/-- **The tree of the text with the block is the tree of the text, unfolded.** -/
theorem parse_unfolded {n : Node} (hclean : (parse source).Clean) (hn : n ∈ (parse source).nodes)
    (hif : n.IsFurther) (h : WritesOut n source source') :
    (parse source').Clean ∧ ∃ d e root, d.kind = .keyword .doKw ∧ e.kind = .keyword .endKw ∧
      (parse source).Twin nowhere source.toUTF8 source'.toUTF8 root ∧
      root.Unfolds d e (parse source') := by
  obtain ⟨fs, cs, bs, htokens, hspans, hwords⟩ := h
  obtain ⟨front, d, chain, e, back, htokens', hfs, hd, hcs, he, hbs⟩ := tokens_between hwords
  have hdo : d.kind = .keyword .doKw := congrArg Prod.fst hd
  have hend : e.kind = .keyword .endKw := congrArg Prod.fst he
  -- Without the two words, the second text is read as the first one is.
  have hstands : ∀ t ∈ front ++ chain ++ back, t.StandsIn source'.toUTF8 := by
    intro t ht
    have hmem : t ∈ tokens source' := by
      rw [htokens']
      simp only [List.mem_append, List.mem_cons] at ht ⊢
      rcases ht with (ht | ht) | ht
      · exact Or.inl (Or.inl ht)
      · exact Or.inl (Or.inr (Or.inr ht))
      · exact Or.inr (Or.inr ht)
    exact standsIn_of_mem_tokens hmem
  have hsame : (tokens source).map Token.word = (front ++ chain ++ back).map Token.word := by
    simp [htokens, hfs, hcs, hbs]
  obtain ⟨root, hrun, htwin⟩ := yields_of_words hclean hsame hstands (endOfText source')
  -- The further `if` stands there in the same place.
  obtain ⟨before, behind, hoccurs⟩ := Node.occurs_of_mem hn
  obtain ⟨m, before', behind', hoccurs', hm, hlength⟩ := hoccurs.alike htwin.1
  have hfront : before'.length = front.length := by
    rw [← hlength, length_of_occurs hclean htokens hspans hoccurs]
    simpa using (congrArg List.length hfs).symm
  have hchain : m.fringe.length = chain.length := by
    have hleaves : n.fringe.length = cs.length := by
      simpa [Node.fringe] using congrArg List.length hspans
    rw [← hm.length_fringe, hleaves]
    simpa using (congrArg List.length hcs).symm
  obtain ⟨rfl, hinner, rfl⟩ := hrun.leaves hoccurs' hfront hchain
  -- It is unfolded between the two words.
  obtain ⟨root', hunfolds, hfringe⟩ := hoccurs'.unfolds d e hrun.wellPlaced (hif.alike hm)
  have hleaves : root'.fringe = (tokens source').map Node.leaf := by
    rw [hfringe, hinner, htokens']
    simp
  obtain ⟨rfl, hclean'⟩ := parse_of_unfolds hdo hend htokens' hrun hunfolds hleaves
  exact ⟨hclean', d, e, root, hdo, hend, htwin, hunfolds⟩

end
end Grammar

/-! ### What the text with the block leads to -/

section
variable {source source' : String} {n : Node}

/-- The two texts are read as the same statements, but for their places. -/
theorem stmts_of_writesOut (hclean : (parse source).Clean) (hn : n ∈ (parse source).nodes)
    (hif : n.IsFurther) (h : WritesOut n source source') :
    (parse source').Clean ∧ (parse source).head.Alike nowhere (parse source').head ∧
      Surface.SameStmts nowhere (Surface.stmtsOf source.toUTF8 (parse source).children)
        (Surface.stmtsOf source'.toUTF8 (parse source').children) := by
  obtain ⟨hclean', d, e, root, hd, he, htwin, hunfolds⟩ := parse_unfolded hclean hn hif h
  have hfile : root.kind = "source_file" :=
    htwin.head.kind.symm.trans (stmtsOf_allProper_of_check (Node.check_eq_ok_iff.mpr hclean)).1
  have hroot : ¬ root.IsFurther := fun hfurther =>
    absurd (hfurther.1.1.symm.trans hfile) (by decide)
  refine ⟨hclean', htwin.head.trans (hunfolds.head_alike hroot), ?_⟩
  have htwins := Surface.stmtsOf_twin _ _ htwin.children
  exact htwins.trans (Surface.stmtsOf_unfolds (by rw [hd]; rfl) (by rw [he]; rfl) hunfolds hfile)

/-- A text without tokens has no `if`. -/
theorem tokens_ne_nil (hclean : (parse source).Clean) (hn : n ∈ (parse source).nodes)
    (hif : n.IsIf) : tokens source ≠ [] := by
  intro hnil
  obtain ⟨last, stop, htakes, hdone⟩ := reading_of_clean hclean
  rw [hnil] at htakes
  obtain rfl : [sourceFile] = last := htakes
  have hroot : parse source = .assemble "source_file" .origin [] := (Step.done.inj hdone).symm
  rw [hroot] at hn
  obtain rfl := List.mem_singleton.mp hn
  exact absurd hif.1 (by decide)

/-- A further `if` can be put between the two words: with each token on a line of its own. -/
theorem exists_writesOut (hclean : (parse source).Clean) (hn : n ∈ (parse source).nodes)
    (hif : n.IsFurther) : ∃ source', WritesOut n source source' := by
  obtain ⟨before, behind, hoccurs⟩ := Node.occurs_of_mem hn
  have hleaves := fringe_of_clean hclean (tokens_ne_nil hclean hn hif.1)
  rw [hoccurs.fringe] at hleaves
  obtain ⟨inner, back, htokens, hinner, -⟩ := List.map_eq_append_iff.mp hleaves.symm
  obtain ⟨front, chain, rfl, -, hchain⟩ := List.map_eq_append_iff.mp hinner
  have hkeyword (k : Keyword) : Lexical.HoldsBefore '\n' k.word :=
    Lexical.holdsBefore_of_spelled (breaks_cons (by decide)) (Plain.spelled_keyword k)
  have htoken : ∀ w ∈ words source, Lexical.HoldsBefore '\n' w := by
    intro w hw
    obtain ⟨t, ht, rfl⟩ := List.mem_map.mp hw
    exact Lexical.token_holds ht
  have hscans := Lexical.scans_joined "\n" rfl (by decide) (front.map Token.word ++
    Keyword.doKw.word :: chain.map Token.word ++ Keyword.endKw.word :: back.map Token.word)
    fun w hw => ?_
  · refine ⟨_, front, chain, back, htokens, ?_, Lexical.words_of_scans hscans⟩
    rw [← n.map_span_fringe, ← hchain, List.map_map]
    rfl
  · rw [words, htokens] at htoken
    simp only [List.map_append, List.mem_append, List.mem_cons] at hw htoken
    rcases hw with (hw | rfl | hw) | rfl | hw
    · exact htoken w (Or.inl (Or.inl hw))
    · exact hkeyword .doKw
    · exact htoken w (Or.inl (Or.inr hw))
    · exact hkeyword .endKw
    · exact htoken w (Or.inr hw)

end

theorem mapError_of_moved {α : Type} {g : Position → Position} {r r' : Except Diagnostic α}
    (h : Except.moved g id r = Except.moved g id r') :
    r.mapError Diagnostic.cause = r'.mapError Diagnostic.cause := by
  cases r with
  | ok a =>
    cases r' with
    | ok a' => exact congrArg Except.ok (Except.ok.inj h)
    | error d' => cases h
  | error d =>
    cases r' with
    | ok a' => cases h
    | error d' =>
      have hmoved : d.moved g = d'.moved g := Except.error.inj h
      exact congrArg Except.error (Diagnostic.cause_eq_of_moved hmoved)

/-- **A further `if` is short for a block.**  In a text that is in order, let a further `if` be put
between `do` and `end`.  This can be done, and every text with these words is in order, gives the
same code or fails for the same cause, and has the same table of symbols. -/
theorem else_if_is_sugar {source : String} {n : Node}
    (h : (parse source).check source.toUTF8 = .ok ()) (hn : n ∈ (parse source).nodes)
    (hif : n.IsFurther) :
    (∃ source', WritesOut n source source') ∧ ∀ source', WritesOut n source source' →
      (parse source').check source'.toUTF8 = .ok () ∧
      (∀ withPrelude, (compile source withPrelude).mapError Diagnostic.cause =
        (compile source' withPrelude).mapError Diagnostic.cause) ∧
      ((analyze source).map (·.table)).mapError Diagnostic.cause =
        ((analyze source').map (·.table)).mapError Diagnostic.cause := by
  have hclean := Node.check_eq_ok_iff.mp h
  refine ⟨exists_writesOut hclean hn hif, fun source' hout => ?_⟩
  obtain ⟨hclean', hhead, hstmts⟩ := stmts_of_writesOut hclean hn hif hout
  refine ⟨Node.check_eq_ok_iff.mpr hclean', fun withPrelude => ?_, ?_⟩
  · rw [compile_of_clean withPrelude hclean, compile_of_clean withPrelude hclean']
    exact mapError_of_moved (written_agree hhead hstmts withPrelude)
  · rw [analyze_of_clean hclean, analyze_of_clean hclean']
    rcases bindTree_agree hhead hstmts with ⟨ss, ss', table, hok, hok', -⟩ |
      ⟨d, d', herror, herror', hsame⟩
    · rw [hok, hok']
      rfl
    · rw [herror, herror']
      exact congrArg Except.error (Diagnostic.cause_eq_of_moved hsame)

/-- A further `if` of a loop, with one more behind it. -/
theorem else_if_is_sugar_in_loop :
    ∃ source source' n,
      source = "while 1 do if 2 do end else if 3 do end else if 4 do end end" ∧
      source' = "while 1 do if 2 do end else do if 3 do end else if 4 do end end end" ∧
      (parse source).check source.toUTF8 = .ok () ∧ n ∈ (parse source).nodes ∧ n.IsFurther ∧
      WritesOut n source source' ∧
      (compile source true).mapError Diagnostic.cause =
        (compile source' true).mapError Diagnostic.cause := by
  obtain ⟨source, hs⟩ : ∃ source, source =
      "while 1 do if 2 do end else if 3 do end else if 4 do end end" := ⟨_, rfl⟩
  obtain ⟨source', hs'⟩ : ∃ source', source' =
      "while 1 do if 2 do end else do if 3 do end else if 4 do end end end" := ⟨_, rfl⟩
  have hcheck : (parse source).check source.toUTF8 = .ok () := by
    have hok : ((parse source).check source.toUTF8).toOption.map id = some () := by
      rw [hs]
      decide +kernel
    obtain ⟨_, hresult, -⟩ := exists_ok_of_map hok
    exact hresult
  have hfound : ((parse source).nodes.any fun n => decide (n.IsFurther ∧
      n.leaves.map Node.span = (((tokens source).drop 8).take 9).map Token.span)) = true := by
    rw [hs]
    decide +kernel
  obtain ⟨n, hn, hnode⟩ := List.any_eq_true.mp hfound
  obtain ⟨hif, hspans⟩ := of_decide_eq_true hnode
  have hout : WritesOut n source source' := by
    refine ⟨(tokens source).take 8, ((tokens source).drop 8).take 9,
      ((tokens source).drop 8).drop 9, ?_, hspans, ?_⟩
    · rw [List.append_assoc, List.take_append_drop, List.take_append_drop]
    · rw [hs, hs']
      decide +kernel
  exact ⟨source, source', n, hs, hs', hcheck, hn, hif, hout,
    ((else_if_is_sugar hcheck hn hif).2 source' hout).2.1 true⟩

end BlockC
