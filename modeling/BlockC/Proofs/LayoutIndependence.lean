import BlockC.Compile
import BlockC.Proofs.ReadingAlike
import BlockC.Proofs.Scanning
import BlockC.Proofs.TreeContract

/-! # The layout of a text does not matter

Texts that have the same tokens but for their places lead to trees of the same shape, which are
checked, read, bound and written in the same way.  So compiling them gives the same code, or fails
for the same cause (`same_words_same_outcome`).
-/
namespace BlockC

open List (Forall₂)

/-- The same cause, except for what is shown of text that fits nowhere. -/
def Cause.Matches : Cause → Cause → Prop
  | .invalidSyntax _, .invalidSyntax _ => True
  | cause, cause' => cause = cause'

theorem Cause.matches_refl (cause : Cause) : cause.Matches cause := by
  cases cause <;> simp [Matches]

/-- The same code, or the same failure but for its place. -/
def SameOutcome : Except Diagnostic String → Except Diagnostic String → Prop
  | .ok code, .ok code' => code = code'
  | .error d, .error d' => d.cause.Matches d'.cause
  | _, _ => False

/-! ### Checking -/

namespace Node

variable {g : Position → Position} {E : Span → Span → Prop}

theorem defect?_alike (source source' : ByteArray) {head head' : NodeHead}
    (h : head.Alike g head') :
    Option.Rel (fun d d' => d.cause.Matches d'.cause) (defect? source head)
      (defect? source' head') := by
  unfold defect?
  rw [← h.missing, ← h.error, ← h.kind]
  split
  · exact .some rfl
  split
  · exact .some trivial
  · exact .none

/-- Trees of the same shape have the same first fault. -/
theorem firstDefect?_alike (source source' : ByteArray) {ns ns' : List Node}
    (h : Forall₂ (Alike g E) ns ns') :
    Option.Rel (fun d d' => d.cause.Matches d'.cause) (firstDefect? source ns)
      (firstDefect? source' ns') := by
  fun_induction firstDefect? source ns generalizing ns' with
  | case1 =>
    cases h
    rw [firstDefect?]
    exact .none
  | case2 head children rest d hd =>
    cases h with
    | @cons _ n' _ rest' hn hrest =>
      obtain ⟨head', children'⟩ := n'
      have hdefect := defect?_alike source source' hn.1
      rw [hd] at hdefect
      rw [firstDefect?]
      generalize defect? source' head' = r at hdefect
      cases hdefect with
      | some hd' => exact .some hd'
  | case3 head children rest hd ih =>
    cases h with
    | @cons _ n' _ rest' hn hrest =>
      obtain ⟨head', children'⟩ := n'
      have hdefect := defect?_alike source source' hn.1
      have hnone : defect? source' head' = none := by
        rw [hd] at hdefect
        generalize defect? source' head' = r at hdefect
        cases hdefect
        rfl
      have hnext : firstDefect? source' (mk head' children' :: rest') =
          firstDefect? source' (children' ++ rest') := by rw [firstDefect?, hnone]
      rw [hnext]
      exact ih (List.rel_append (allAlike_iff.mp hn.2.1) hrest)

end Node

/-! ### Binding and writing -/

section
variable {g : Position → Position} {source source' : ByteArray}

/-- Trees that are read as the same statements but for their places are bound in the same way. -/
theorem bindTree_agree {root root' : Node} (hhead : root.head.Alike g root'.head)
    (hstmts : Surface.SameStmts g (Surface.stmtsOf source root.children)
      (Surface.stmtsOf source' root'.children)) :
    (∃ ss ss' table, bindTree root source = .ok ⟨⟨ss, root.span⟩, table⟩ ∧
        bindTree root' source' = .ok ⟨⟨ss', root'.span⟩, table⟩ ∧
        Bound.Stmt.allMoved g ss = Bound.Stmt.allMoved g ss') ∨
      ∃ d d', bindTree root source = .error d ∧ bindTree root' source' = .error d' ∧
        d.moved g = d'.moved g := by
  have hkind : root.kind = root'.kind := hhead.kind
  have hrun := Binder.relocates_stmts (g := g) (Surface.stmtsOf source root.children)
  have hrun' := Binder.relocates_stmts (g := g) (Surface.stmtsOf source' root'.children)
  rw [← show Surface.Stmt.allMoved g _ = _ from hstmts] at hrun'
  unfold bindTree
  rw [← hkind]
  split
  · rcases hrun.agree hrun' .initial with
      ⟨bs, bs', c, hbs, hbs', hsame⟩ | ⟨d, d', c, hd, hd', hsame⟩
    · rw [hbs, hbs']
      exact Or.inl ⟨bs, bs', c.table, rfl, rfl, hsame⟩
    · rw [hd, hd']
      exact Or.inr ⟨d, d', rfl, rfl, hsame⟩
  · exact Or.inr ⟨_, _, rfl, rfl, Surface.malformed_alike hhead _⟩

/-- They are written in the same way as well. -/
theorem written_agree {root root' : Node} (hhead : root.head.Alike g root'.head)
    (hstmts : Surface.SameStmts g (Surface.stmtsOf source root.children)
      (Surface.stmtsOf source' root'.children)) (withPrelude : Bool) :
    Except.moved g id (bindTree root source >>= (Code.unit · withPrelude)) =
      Except.moved g id (bindTree root' source' >>= (Code.unit · withPrelude)) := by
  rcases bindTree_agree hhead hstmts with
    ⟨ss, ss', table, hss, hss', hsame⟩ | ⟨d, d', hd, hd', hsame⟩
  · rw [hss, hss']
    exact Code.unit_agree table hsame root.span root'.span withPrelude
  · rw [hd, hd']
    exact congrArg Except.error hsame

/-- Trees of the same shape are bound and written in the same way. -/
theorem written_twin {root root' : Node} (h : root.Twin g source source' root')
    (withPrelude : Bool) :
    Except.moved g id (bindTree root source >>= (Code.unit · withPrelude)) =
      Except.moved g id (bindTree root' source' >>= (Code.unit · withPrelude)) :=
  written_agree h.head (Surface.stmtsOf_twin _ _ h.children) withPrelude

end

/-! ### Trees of the same tokens -/

namespace Grammar

theorem outermost_alike {g : Position → Position} {E : Span → Span → Prop} {s s' : Stack}
    (h : Stack.Alike g E s s') :
    Forall₂ (Node.Alike g E) (Stack.outermost s) (Stack.outermost s') := by
  have hreverse := List.forall₂_reverse_iff.mpr h
  unfold Stack.outermost
  rw [List.getLast?_eq_head?_reverse, List.getLast?_eq_head?_reverse]
  generalize s.reverse = fs, s'.reverse = fs' at hreverse
  cases hreverse with
  | nil => exact .nil
  | @cons f f' _ _ hf _ =>
    cases f <;> cases f' <;> first | exact hf.elim | exact .nil | skip
    exact List.forall₂_reverse_iff.mpr hf.2.2.1

theorem record_alike {all all' : List Token}
    (h : Forall₂ (Token.Alike nowhere fun _ _ => True) all all') {fault fault' : Fault}
    (hf : fault.Alike fault') :
    (fault.record all).Alike nowhere (fun _ _ => True) (fault'.record all') := by
  cases fault <;> cases fault' <;> first | exact hf.elim | skip
  · rename_i index index'
    obtain rfl : index = index' := hf
    refine Node.alike_iff.mpr ⟨⟨rfl, rfl, rfl, rfl, rfl, rfl⟩, ?_, fun _ => Or.inr trivial⟩
    have hdrop := List.forall₂_drop index h
    exact List.forall₂_map_left_iff.mpr (List.forall₂_map_right_iff.mpr
      (hdrop.imp fun _ _ ht => Node.alike_leaf ht))
  · obtain ⟨rfl, rfl⟩ := hf
    exact Node.alike_iff.mpr ⟨⟨rfl, rfl, rfl, rfl, rfl, rfl⟩, .nil, fun _ => Or.inr trivial⟩

/-- Texts with tokens of the same kinds have trees of the same shape. -/
theorem parse_alike {source source' : String}
    (h : (tokens source).map (·.kind) = (tokens source').map (·.kind)) :
    (parse source).Alike nowhere (fun _ _ => True) (parse source') := by
  have hts := alike_of_kinds h
  have hstart : (Stream.ofString source).index = (Stream.ofString source').index := rfl
  rcases drive_alike hts alike_sourceFile hstart with
    ⟨n, n', hn, hn', halike⟩ | ⟨f, f', hf, hf', hfault, hpending⟩
  · rw [parse_of_ok hn, parse_of_ok hn']
    exact halike
  · rw [parse_of_error hf, parse_of_error hf']
    have hbefore := outermost_alike (hpending ⟨rfl, rfl, trivial⟩)
    exact Node.alike_assemble _ (List.rel_append hbefore (.cons (record_alike hts hfault) .nil)) rfl
      (Or.inl rfl)

/-- Tokens of the same words stand for the same texts. -/
theorem alike_of_words {source source' : String} {ts ts' : List Token}
    (h : ts.map Token.word = ts'.map Token.word) (hts : ∀ t ∈ ts, t.StandsIn source.toUTF8)
    (hts' : ∀ t ∈ ts', t.StandsIn source'.toUTF8) :
    Forall₂ (Token.Alike nowhere (SameText source.toUTF8 source'.toUTF8)) ts ts' := by
  induction ts generalizing ts' with
  | nil =>
    obtain rfl := List.map_eq_nil_iff.mp h.symm
    exact .nil
  | cons t ts ih =>
    cases ts' with
    | nil => cases h
    | cons t' ts' =>
      obtain ⟨hword, hrest⟩ := List.cons.inj h
      obtain ⟨hkind, hvalue⟩ := Prod.mk.inj hword
      have ht := (hts t (by simp)).text
      have ht' := (hts' t' (by simp)).text
      refine .cons ⟨hkind, rfl, t.value, ht, ?_⟩ (ih hrest (fun u hu => hts u (by simp [hu]))
        fun u hu => hts' u (by simp [hu]))
      rw [hvalue]
      exact ht'

/-- Texts in order with the same words have trees that are read in the same way. -/
theorem parse_twin {source source' : String} (h : words source = words source')
    (hclean : (parse source).Clean) (hclean' : (parse source').Clean) :
    (parse source).Twin nowhere source.toUTF8 source'.toUTF8 (parse source') := by
  have hok := result_of_clean hclean
  have hok' := result_of_clean hclean'
  have hts := alike_of_words h (fun t ht => standsIn_of_mem_tokens ht)
    fun t ht => standsIn_of_mem_tokens ht
  refine ⟨?_, legible_of_drive hok⟩
  have hstart : (Stream.ofString source).index = (Stream.ofString source').index := rfl
  rcases drive_alike hts alike_sourceFile hstart with
    ⟨n, n', hn, hn', halike⟩ | ⟨f, f', hf, -⟩
  · rw [hok] at hn
    rw [hok'] at hn'
    cases hn
    cases hn'
    exact halike
  · rw [hok] at hf
    cases hf

end Grammar

open Grammar

/-! ### Compiling -/

section
variable {source : String} (withPrelude : Bool)

theorem analyze_of_clean (h : (parse source).Clean) :
    analyze source = bindTree (parse source) source.toUTF8 := by
  simp only [analyze, Node.check_eq_ok_iff.mpr h]
  rfl

theorem compile_of_clean (h : (parse source).Clean) :
    compile source withPrelude =
      bindTree (parse source) source.toUTF8 >>= (Code.unit · withPrelude) := by
  rw [compile, analyze_of_clean h]

theorem compile_of_defect {d : Diagnostic}
    (h : Node.firstDefect? source.toUTF8 [parse source] = some d) :
    compile source withPrelude = .error d := by
  simp only [compile, analyze, Node.check, h]
  rfl

end

/-- Reports that are the same but for their places have the same cause. -/
theorem Diagnostic.cause_eq_of_moved {g : Position → Position} {d d' : Diagnostic}
    (h : d.moved g = d'.moved g) : d.cause = d'.cause :=
  (Diagnostic.mk.inj h).1

theorem sameOutcome_of_moved {r r' : Except Diagnostic String} {g : Position → Position}
    (h : Except.moved g id r = Except.moved g id r') : SameOutcome r r' := by
  cases r with
  | ok code =>
    cases r' with
    | ok code' => exact Except.ok.inj h
    | error d' => cases h
  | error d =>
    cases r' with
    | ok code' => cases h
    | error d' =>
      have hmoved : d.moved g = d'.moved g := Except.error.inj h
      change d.cause.Matches d'.cause
      rw [Diagnostic.cause_eq_of_moved hmoved]
      exact d'.cause.matches_refl

/-- **Texts with the same words lead to the same code, or fail for the same cause.** -/
theorem same_words_same_outcome (source source' : String) (withPrelude : Bool)
    (h : words source = words source') :
    SameOutcome (compile source withPrelude) (compile source' withPrelude) := by
  have hkinds : (tokens source).map (·.kind) = (tokens source').map (·.kind) := by
    have hfst := congrArg (List.map Prod.fst) h
    simp only [words, List.map_map] at hfst
    exact hfst
  have hcheck := Node.firstDefect?_alike source.toUTF8 source'.toUTF8
    (.cons (parse_alike hkinds) .nil)
  cases hd : Node.firstDefect? source.toUTF8 [parse source] with
  | none =>
    cases hd' : Node.firstDefect? source'.toUTF8 [parse source'] with
    | none =>
      have hclean := Node.firstDefect?_eq_none_iff.mp hd (parse source) (by simp)
      have hclean' := Node.firstDefect?_eq_none_iff.mp hd' (parse source') (by simp)
      rw [compile_of_clean withPrelude hclean, compile_of_clean withPrelude hclean']
      exact sameOutcome_of_moved (written_twin (parse_twin h hclean hclean') withPrelude)
    | some d' =>
      rw [hd, hd'] at hcheck
      cases hcheck
  | some d =>
    cases hd' : Node.firstDefect? source'.toUTF8 [parse source'] with
    | none =>
      rw [hd, hd'] at hcheck
      cases hcheck
    | some d' =>
      rw [hd, hd'] at hcheck
      rw [compile_of_defect withPrelude hd, compile_of_defect withPrelude hd']
      cases hcheck with
      | some hcause => exact hcause

/-- Two texts of the same words, one of which has a comment and no blanks where the other has. -/
theorem comment_does_not_matter :
    words "let x: i32 = 1" = words "let/* a */x:i32\n=1 // one" ∧
      SameOutcome (compile "let x: i32 = 1" false)
        (compile "let/* a */x:i32\n=1 // one" false) := by
  have h : words "let x: i32 = 1" = words "let/* a */x:i32\n=1 // one" := by decide
  exact ⟨h, same_words_same_outcome _ _ false h⟩

end BlockC
