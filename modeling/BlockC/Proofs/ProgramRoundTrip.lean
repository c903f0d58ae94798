import BlockC.Proofs.LocalInvariant
import BlockC.Proofs.ProgramReading
import BlockC.Proofs.Relexing
import BlockC.Proofs.TreeContract

/-! # Plain programs and their texts

A plain program that is written down is parsed without faults, and what is read from its tree is the
program again (`text_reads_back`).
-/
namespace BlockC
namespace Grammar

open Surface

/-- Statements are read to the end of the text. -/
theorem drive_body {ts : List Token} {ns : List Node} (h : ReadsBody ts ns) (s : Stream) :
    (drive s [sourceFile] ts).result = .ok (.assemble "source_file" .origin ns) := by
  have hend : Fills "source_file" [.choice .topLevel] EndOfText [] [] :=
    .noChoice fun t ht => by
      rw [EndOfText] at ht
      rw [ht]
      exact ⟨rfl, rfl⟩
  have hfills := fills_body topLevel_repeats h hend
  rw [List.append_nil, List.append_nil] at hfills
  obtain ⟨stack, htakes, hsettles⟩ := hfills [] []
  obtain ⟨s', -, hdrive⟩ := drive_of_takes htakes [] s
  rw [List.append_nil] at hdrive hsettles
  have hdone : feed (.eof s'.stop) stack = .done (.assemble "source_file" .origin ns) := by
    have heof : EndOfText (.eof s'.stop) := rfl
    rw [hsettles _ heof, feed, before_nil, List.reverse_reverse]
    rfl
  change (drive s [.partly "source_file" [] [.choice .topLevel]] ts).result = _
  rw [hdrive, drive]
  simp only [hdone]

end Grammar

open Grammar Surface

/-- **Whatever plain program is written down, its text is parsed without errors and placeholders,
and read as the program.** -/
theorem text_reads_back (program : List Plain.Stmt) (h : Plain.Stmt.AllProper program) :
    (parse (Plain.text program)).Clean ∧
      Stmt.plains? (stmtsOf (Plain.text program).toUTF8 (parse (Plain.text program)).children) =
        some program := by
  have hwords := Plain.words_text h
  obtain ⟨ns, hbody, hplain⟩ := reads_stmts program h (tokens (Plain.text program)) hwords
    fun t ht => standsIn_of_mem_tokens ht
  have hdrive := drive_body hbody (Stream.ofString (Plain.text program))
  have hknown : ∀ t ∈ tokens (Plain.text program), t.kind ≠ .unknown := by
    intro t ht
    have hmem : t.word ∈ Plain.Stmt.allWords program := hwords ▸ List.mem_map_of_mem ht
    exact (Plain.Stmt.allSpelled program h t.word hmem).2
  rw [parse_of_ok hdrive]
  exact ⟨clean_of_drive hknown hdrive, hplain⟩

/-- A program with an array of function pointers, operators of several levels, a call with a dotted
name, an `else if` and statements nested three deep. -/
def Plain.sample : List Plain.Stmt :=
  [.mod "geo",
   .declare ⟨"steps", .array 3 (.pointer (.func [.name ["i32"], .slice (.name ["geo", "num"])]
       (.name ["u8"])))⟩
     (some (.condition
       (.binary (.unary .neg (.name ["a", "b"])) .add
         (.binary (.number 2) .mul (.parenthesized (.assignment (.name ["y"]) .assign .null))))
       (.call ["geo", "area"] [.number 18446744073709551615, .string "\"a\\\"b\""])
       (.boolean true))),
   .externalFunction ⟨"printf", [⟨"text", .pointer (.name ["u8"])⟩], true, .name ["i32"]⟩,
   .func ⟨"main", [], false, .name ["i32"]⟩
     [.ifElse (.name ["a"]) [.returned (.number 1)]
        (.further (.boolean false) [] (.block [.whileLoop .null [.empty, .expr (.name ["x"])]])),
      .returned (.number 0)]]

theorem sample_reads_back :
    Plain.Stmt.AllProper Plain.sample ∧ (parse (Plain.text Plain.sample)).Clean ∧
      Stmt.plains? (stmtsOf (Plain.text Plain.sample).toUTF8
        (parse (Plain.text Plain.sample)).children) = some Plain.sample := by
  have hquoted : Lexical.IsQuoted "\"a\\\"b\"" :=
    ⟨['a', '\\', '"', 'b'], rfl, .plain (by decide) (by decide) (by decide)
      (.escape (by decide) (.plain (by decide) (by decide) (by decide) .nil))⟩
  have h : Plain.Stmt.AllProper Plain.sample := by
    simp +decide [hquoted, Plain.sample, Plain.Stmt.AllProper, Plain.Stmt.Proper,
      Plain.Otherwise.Proper, Plain.Binding.Proper, Plain.Header.Proper, Plain.TypeExpr.Proper,
      Plain.TypeExpr.AllProper, Plain.Expr.Proper, Plain.Expr.AllProper, Plain.Expr.AtLeast,
      Plain.Expr.Tighter]
  exact ⟨h, text_reads_back Plain.sample h⟩

end BlockC
