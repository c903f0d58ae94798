import BlockC.Compile
import BlockC.Proofs.CompleteUnits
import BlockC.Proofs.TreeContract

/-! # How compiling ends

A text is refused for its form, which the check of its tree finds, or for what its names, types and
numbers mean, which binding finds.  What is bound can always be written.  So the causes that stand
for trees of another shape, or for symbols that are missing or have no type, never reach a user
(`compile_ends`).
-/
namespace BlockC

/-- The causes that a text in order can be refused for. -/
def Cause.IsMeaning : Cause → Prop
  | .unresolvedSymbol _ | .redefinition _ | .notAType _ | .notCallable _ | .typingMisuse _
  | .variadicDefinition _ | .numberParse _ => True
  | _ => False

theorem Cause.IsBinding.isMeaning {cause : Cause} (h : cause.IsBinding) : cause.IsMeaning := by
  cases cause <;> first | exact h | trivial

theorem Diagnostic.IsNumberParse.isMeaning {d : Diagnostic} (h : d.IsNumberParse) :
    d.cause.IsMeaning := by
  obtain ⟨literal, hcause⟩ := h
  rw [hcause]
  trivial

/-- What the check of a tree finds is a matter of form. -/
theorem Node.firstDefect?_form {source : ByteArray} {pending : List Node} {d : Diagnostic}
    (h : firstDefect? source pending = some d) : d.cause.category = .form := by
  fun_induction firstDefect? source pending with
  | case1 => cases h
  | case2 head children rest found hdefect =>
    obtain rfl := Option.some.inj h
    unfold defect? at hdefect
    split at hdefect
    · obtain rfl := Option.some.inj hdefect
      rfl
    · split at hdefect
      · obtain rfl := Option.some.inj hdefect
        rfl
      · cases hdefect
  | case3 head children rest hnone ih => exact ih h

theorem Node.check_form {n : Node} {source : ByteArray} {d : Diagnostic}
    (h : n.check source = .error d) : d.cause.category = .form := by
  unfold check at h
  split at h
  · rename_i found hfound
    obtain rfl := Except.error.inj h
    exact firstDefect?_form hfound
  · cases h

namespace Surface

theorem proper_faults (e : Expr) (h : proper.expr e) : e.Faults proper.fault :=
  Expr.Proper.faults h

end Surface

/-- What binding a text in order ends with. -/
theorem bindTree_meets {source : String}
    (h : (Grammar.parse source).check source.toUTF8 = .ok ()) :
    Meets
      (fun u : Bound.CompilationUnit => ∃ ctx, u.table = ctx.table ∧
        Binder.BindsAll Surface.proper .initial u.sourceFile.stmts ctx)
      (fun d => d.cause.IsMeaning) (bindTree (Grammar.parse source) source.toUTF8) := by
  obtain ⟨hkind, hproper⟩ := Grammar.stmtsOf_allProper_of_check h
  have hleads := Binder.stmts_leads Surface.proper_faults Context.wellFormed_initial _ hproper
  unfold Binder.Leads at hleads
  unfold bindTree
  rw [hkind]
  simp only [beq_self_eq_true, if_true]
  split
  · rename_i stmts ctx hrun
    rw [hrun] at hleads
    exact ⟨ctx, rfl, hleads⟩
  · rename_i d ctx hrun
    rw [hrun] at hleads
    obtain ⟨-, hd | hd⟩ := hleads
    · exact hd.isMeaning
    · exact Diagnostic.IsNumberParse.isMeaning hd

/-- What can be analyzed is bound, and its tree has passed the check. -/
theorem analyze_eq_ok {source : String} {u : Bound.CompilationUnit} (h : analyze source = .ok u) :
    (Grammar.parse source).check source.toUTF8 = .ok () ∧
      bindTree (Grammar.parse source) source.toUTF8 = .ok u := by
  unfold analyze at h
  cases hcheck : (Grammar.parse source).check source.toUTF8 with
  | error d =>
    simp only [hcheck] at h
    cases h
  | ok _ =>
    simp only [hcheck] at h
    exact ⟨rfl, h⟩

/-- What is known of a text that can be analyzed. -/
theorem analyze_binds {source : String} {u : Bound.CompilationUnit} (h : analyze source = .ok u) :
    ∃ ctx, u.table = ctx.table ∧
      Binder.BindsAll Surface.proper .initial u.sourceFile.stmts ctx := by
  obtain ⟨hcheck, hbind⟩ := analyze_eq_ok h
  have hmeets := bindTree_meets hcheck
  rw [hbind] at hmeets
  exact hmeets

theorem compile_of_check_ok {source : String}
    (h : (Grammar.parse source).check source.toUTF8 = .ok ()) (withPrelude : Bool) :
    compile source withPrelude =
      bindTree (Grammar.parse source) source.toUTF8 >>= fun u => Code.unit u withPrelude := by
  unfold compile analyze
  simp only [h]
  rfl

theorem compile_of_check_error {source : String} {d : Diagnostic}
    (h : (Grammar.parse source).check source.toUTF8 = .error d) (withPrelude : Bool) :
    compile source withPrelude = .error d := by
  unfold compile analyze
  simp only [h]
  rfl

/-- What is bound is written. -/
theorem compile_of_bindTree_ok {source : String} {u : Bound.CompilationUnit}
    (hcheck : (Grammar.parse source).check source.toUTF8 = .ok ())
    (hrun : bindTree (Grammar.parse source) source.toUTF8 = .ok u) (withPrelude : Bool) :
    ∃ text, compile source withPrelude = .ok text := by
  have hcompile := compile_of_check_ok hcheck withPrelude
  rw [hrun] at hcompile
  obtain ⟨text, htext⟩ := unit_ok_of_bindTree hrun withPrelude
  exact ⟨text, hcompile.trans htext⟩

/-- What a text is refused for was found by the check of its tree, or else by binding it. -/
theorem compile_eq_error {source : String} {withPrelude : Bool} {d : Diagnostic}
    (h : compile source withPrelude = .error d) :
    (Grammar.parse source).check source.toUTF8 = .error d ∨
      (Grammar.parse source).check source.toUTF8 = .ok () ∧
        bindTree (Grammar.parse source) source.toUTF8 = .error d ∧ d.cause.IsMeaning := by
  cases hcheck : (Grammar.parse source).check source.toUTF8 with
  | error d' =>
    obtain rfl := Except.error.inj ((compile_of_check_error hcheck withPrelude).symm.trans h)
    exact .inl rfl
  | ok _ =>
    have hcompile := compile_of_check_ok hcheck withPrelude
    have hbind := bindTree_meets hcheck
    cases hrun : bindTree (Grammar.parse source) source.toUTF8 with
    | error d' =>
      rw [hrun] at hcompile hbind
      obtain rfl : d' = d := Except.error.inj (hcompile.symm.trans h)
      exact .inr ⟨rfl, rfl, hbind⟩
    | ok u =>
      obtain ⟨text, htext⟩ := compile_of_bindTree_ok hcheck hrun withPrelude
      rw [h] at htext
      cases htext

/-- **How compiling ends.**  If the check of the tree finds something, that is what is reported, and
it is a matter of form.  Otherwise what binding the tree reports is reported, and it is a matter of
meaning; and if binding reports nothing there is C text. -/
theorem compile_ends (source : String) (withPrelude : Bool) :
    match (Grammar.parse source).check source.toUTF8 with
    | .error d => compile source withPrelude = .error d ∧
        ((∃ found, d.cause = .invalidSyntax found) ∨ ∃ expected, d.cause = .missingSyntax expected)
    | .ok () =>
      match bindTree (Grammar.parse source) source.toUTF8 with
      | .error d => compile source withPrelude = .error d ∧ d.cause.IsMeaning
      | .ok _ => ∃ text, compile source withPrelude = .ok text := by
  cases hcheck : (Grammar.parse source).check source.toUTF8 with
  | error d =>
    refine ⟨compile_of_check_error hcheck withPrelude, ?_⟩
    have hform := Node.check_form hcheck
    cases hcause : d.cause with
    | invalidSyntax found => exact .inl ⟨found, rfl⟩
    | missingSyntax expected => exact .inr ⟨expected, rfl⟩
    | _ => simp [hcause, Cause.category] at hform
  | ok _ =>
    have hcompile := compile_of_check_ok hcheck withPrelude
    have hbind := bindTree_meets hcheck
    cases hrun : bindTree (Grammar.parse source) source.toUTF8 with
    | error d =>
      rw [hrun] at hcompile hbind
      exact ⟨hcompile, hbind⟩
    | ok u => exact compile_of_bindTree_ok hcheck hrun withPrelude

end BlockC
