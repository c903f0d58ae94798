import BlockC.Proofs.EarliestFault
import BlockC.Proofs.TreeContract

/-! # The statements before a fault

A text that cannot be read to its end still has a tree: the statements that were complete before the
first fault, and a record of it.  These statements are as proper as those of a text in order
(`stmtsOf_parse_over`), so what binding needs to know of names is known of every text.
-/
namespace BlockC

namespace Surface

/-- What meets one standard meets the other. -/
structure Standard.Implies (S S' : Standard) : Prop where
  name : ∀ s, S.name s → S'.name s
  type : ∀ t, S.type t → S'.type t
  expr : ∀ e, S.expr e → S'.expr e
  fault : ∀ d, S.fault d → S'.fault d

section
variable {S S' : Standard}

theorem Binding.Over.mono (h : S.Implies S') {b : Binding} (hb : b.Over S) : b.Over S' :=
  ⟨h.name _ hb.1, h.type _ hb.2⟩

theorem Param.Over.mono (h : S.Implies S') {p : Param} (hp : p.Over S) : p.Over S' := by
  cases p with
  | binding b => exact Binding.Over.mono h hp
  | variadic => trivial
  | bad d => exact h.fault d hp

theorem Header.Over.mono (h : S.Implies S') {f : Header} (hf : f.Over S) : f.Over S' :=
  ⟨h.name _ hf.1, fun p hp => (hf.2.1 p hp).mono h,
    hf.2.2.mono (fun _ ha => h.type _ ha) fun d hd => h.fault d hd⟩

mutual

/-- A statement that meets a standard meets one that asks for less. -/
theorem Stmt.Over.mono (h : S.Implies S') : {s : Stmt} → s.Over S → s.Over S'
  | .empty _, _ => trivial
  | .mod name _, hs => h.name name.text hs
  | .declare _ _ _, hs => ⟨hs.1.mono h, fun e he => h.expr e (hs.2 e he)⟩
  | .externalVariable _ _ _, hs => Binding.Over.mono h hs
  | .externalFunction _ _ _, hs => Header.Over.mono h hs
  | .whileLoop _ _ _, hs => ⟨h.expr _ hs.1, hs.2.mono h⟩
  | .ifThen _ _ _, hs => ⟨h.expr _ hs.1, hs.2.mono h⟩
  | .ifElse _ _ _ _, hs => ⟨h.expr _ hs.1, hs.2.1.mono h, hs.2.2.mono h⟩
  | .returned value _, hs => h.expr value hs
  | .typeAlias _ _ _, hs => ⟨h.name _ hs.1, h.type _ hs.2⟩
  | .func _ _ _, hs => ⟨hs.1.mono h, hs.2.mono h⟩
  | .expr value _, hs => h.expr value hs
  | .bad d, hs => h.fault d hs
  | .stuck _ _, hs => ⟨h.expr _ hs.1, h.fault _ hs.2⟩

theorem Block.Over.mono (h : S.Implies S') : {b : Block} → b.Over S → b.Over S'
  | .mk stmts _, hb =>
    have hstmts : Stmt.AllOver S stmts := hb
    hstmts.mono h

theorem Stmt.AllOver.mono (h : S.Implies S') : {ss : List Stmt} → Stmt.AllOver S ss →
    Stmt.AllOver S' ss
  | [], _ => trivial
  | _ :: _, hs => ⟨hs.1.mono h, hs.2.mono h⟩

end
end

/-- What can be read is proper, and what cannot is whatever it is. -/
def properUpToFaults : Standard :=
  { proper with fault := fun _ => True }

theorem proper_implies_upToFaults : proper.Implies properUpToFaults :=
  ⟨fun _ h => h, fun _ h => h, fun _ h => h, fun _ _ => trivial⟩

theorem stmtsOf_allOver {S : Standard} {source : ByteArray} {ns : List Node}
    (h : ∀ n ∈ ns, (stmtOf source n).Over S) : Stmt.AllOver S (stmtsOf source ns) := by
  induction ns with
  | nil => simp [stmtsOf, Stmt.AllOver]
  | cons n ns ih =>
    obtain ⟨hn, hns⟩ := List.forall_mem_cons.mp h
    unfold stmtsOf
    split
    · exact ⟨hn, ih hns⟩
    · exact ih hns

end Surface

namespace Grammar

open Surface

/-! ### Stacks on top of other frames -/

/-- What a stack does on top of other frames. -/
def Step.onTop (t : Token) (below : Stack) : Step → Step
  | .shift next => .shift (next ++ below)
  | .done n => resume t n below
  | .stuck request pending => .stuck request (pending ++ below)

theorem resume_append (t : Token) (n : Node) (stack below : Stack) :
    resume t n (stack ++ below) = (resume t n stack).onTop t below := by
  induction stack generalizing n with
  | nil => rfl
  | cons f rest ih =>
    rw [List.cons_append, resume, resume]
    cases (f.fill n).before t with
    | shift frames => simp [Step.onTop]
    | complete node => exact ih node
    | stuck request => rfl

theorem feed_append {stack : Stack} (t : Token) (h : stack ≠ []) (below : Stack) :
    feed t (stack ++ below) = (feed t stack).onTop t below := by
  obtain ⟨f, rest, rfl⟩ := List.exists_cons_of_ne_nil h
  rw [List.cons_append, feed, feed]
  cases f.before t with
  | shift frames => simp [Step.onTop]
  | complete node => exact resume_append t node rest below
  | stuck request => rfl

/-! ### Between and within statements -/

section
variable {source : ByteArray}

/-- A source file with some statements, before the next one. -/
def fileAfter (done : List Node) : Frame :=
  .partly "source_file" done [.choice .topLevel]

/-- A source file with some statements, which waits for the next one. -/
def fileWaiting (done : List Node) : Frame :=
  .partly "source_file" done [.hole none, .choice .topLevel]

/-- A stack that reads a source file whose statements so far are proper: it is between two
statements, or within one. -/
inductive InFile (source : ByteArray) : Stack → Prop
  | between {done : List Node} (h : ∀ n ∈ done, (stmtOf source n).Proper) :
      InFile source [fileAfter done]
  | within {inner : Stack} {done : List Node} (h : ∀ n ∈ done, (stmtOf source n).Proper)
      (hinner : Builds (Readable source) (Token.StandsIn source) .stmt inner) :
      InFile source (inner ++ [fileWaiting done])

theorem inFile_sourceFile : InFile source [sourceFile] := by
  have hnone : ∀ n ∈ ([] : List Node), (stmtOf source n).Proper := by simp
  exact .between hnone

/-- What a step leaves of a source file is proper. -/
def Step.Proper (source : ByteArray) (t : Token) : Step → Prop
  | .shift next => t.StandsIn source → InFile source next
  | .done root => ∀ n ∈ root.children, (stmtOf source n).Proper
  | .stuck _ pending => ∀ n ∈ pending.outermost, (stmtOf source n).Proper

theorem outermost_append (inner : Stack) (done : List Node) (todo : List Part) (kind : String) :
    Stack.outermost (inner ++ [Frame.partly kind done todo]) = done.reverse := by
  simp [Stack.outermost]

theorem outermost_single (done : List Node) (todo : List Part) (kind : String) :
    Stack.outermost [.partly kind done todo] = done.reverse :=
  outermost_append [] done todo kind

/-- Between two statements the file ends, or the next statement starts. -/
theorem fileAfter_before (done : List Node) (t : Token) :
    (fileAfter done).before t = .complete (.assemble "source_file" .origin done.reverse) ∨
      (∃ inner, Production.stmt.begin t = .ok inner ∧
        (fileAfter done).before t = .shift (inner ++ [fileWaiting done])) ∨
      ∃ request, (fileAfter done).before t = .stuck request := by
  unfold fileAfter Frame.before settle
  simp only [Choice.rename?, Option.getD_none, List.append_nil]
  cases hexpand : Choice.topLevel.expand t.kind with
  | nil => exact .inl rfl
  | cons part rest =>
    obtain ⟨rfl, rfl⟩ : part = .node .stmt none ∧ rest = [.choice .topLevel] := by
      unfold Choice.expand at hexpand
      split at hexpand <;> simp_all
    cases hbegin : Production.stmt.begin t with
    | ok inner => exact .inr (.inl ⟨inner, rfl, by simp [hbegin, fileWaiting]⟩)
    | error request => exact .inr (.inr ⟨request, by simp [hbegin]⟩)

/-- A step between two statements. -/
theorem proper_between {done : List Node} (t : Token) (h : ∀ n ∈ done, (stmtOf source n).Proper) :
    (feed t [fileAfter done]).Proper source t := by
  have hdone : ∀ n ∈ done.reverse, (stmtOf source n).Proper := fun n hn => h n (by simpa using hn)
  rcases fileAfter_before done t with hb | ⟨inner, hbegin, hb⟩ | ⟨request, hb⟩
  · simp only [feed, hb, resume, Step.Proper, Node.children_assemble]
    exact hdone
  · simp only [feed, hb, List.append_nil, Step.Proper]
    exact fun ht => .within h (closed_readable.start ht hbegin)
  · simp only [feed, hb, Step.Proper]
    rw [fileAfter, outermost_single]
    exact hdone

/-- A statement that is complete goes to the statements of the file. -/
theorem resume_fileWaiting (t : Token) (n : Node) (done : List Node) :
    resume t n [fileWaiting done] = feed t [fileAfter (n.inField none :: done)] := by
  simp only [resume, feed, fileWaiting, fileAfter, Frame.fill]

/-- **A stack that reads a source file goes on with one whose statements are proper.** -/
theorem InFile.feed {stack : Stack} (h : InFile source stack) (t : Token) :
    (feed t stack).Proper source t := by
  cases h with
  | between h => exact proper_between t h
  | @within inner done h hinner =>
    have hne : inner ≠ [] := by
      rintro rfl
      exact hinner
    obtain ⟨hcomplete, hshift⟩ := feed_meets closed_readable (t := t) hinner
    rw [feed_append t hne]
    cases hf : Grammar.feed t inner with
    | shift next => exact fun ht => .within h (hshift next hf ht)
    | done n =>
      simp only [Step.onTop, resume_fileWaiting]
      refine proper_between t (List.forall_mem_cons.mpr ⟨?_, h⟩)
      rw [stmtOf_inField]
      exact (hcomplete n hf).2
    | stuck request pending =>
      simp only [Step.onTop, Step.Proper, fileWaiting, outermost_append]
      exact fun n hn => h n (by simpa using hn)

theorem Takes.inFile {ts : List Token} {stack last : Stack} (h : Takes ts stack last)
    (hts : ∀ t ∈ ts, t.StandsIn source) (hs : InFile source stack) : InFile source last := by
  induction ts generalizing stack with
  | nil =>
    obtain rfl : stack = last := h
    exact hs
  | cons t ts ih =>
    obtain ⟨next, hfeed, hrest⟩ := h
    obtain ⟨ht, hts⟩ := List.forall_mem_cons.mp hts
    have hstep := hs.feed t
    rw [hfeed] at hstep
    exact ih hrest hts (hstep ht)

end

/-- The record of a fault cannot be read as a statement. -/
theorem stmtOf_record (source : ByteArray) (all : List Token) (fault : Fault) :
    ∃ d, stmtOf source (fault.record all) = .bad d := by
  cases fault with
  | unexpected index => exact ⟨_, rfl⟩
  | missing kind named pos =>
    simp only [Fault.record, Node.absent, stmtOf, stmtInside, Option.getD_none]
    split
    · exact ⟨_, rfl⟩
    · exact ⟨_, rfl⟩

/-- **What can be read of a text is proper.**  The statements before the first fault are, and the
record of the fault cannot be read. -/
theorem stmtsOf_parse_over (source : String) :
    Stmt.AllOver properUpToFaults (stmtsOf source.toUTF8 (parse source).children) := by
  obtain ⟨taken, rest, last, place, htokens, htakes, -, -, hdrive, hcases⟩ := run_ends source
  have hlast : InFile source.toUTF8 last :=
    htakes.inFile (fun t ht => standsIn_of_mem_tokens (by simp [htokens, ht])) inFile_sourceFile
  -- The children are statements of the file, or the record of a fault behind them.
  have hchildren : ∀ n ∈ (parse source).children,
      (stmtOf source.toUTF8 n).Proper ∨ ∃ d, stmtOf source.toUTF8 n = .bad d := by
    have hfault {fault : Fault} {place' : Stream} {pending : Stack}
        (h : drive place last rest = ⟨.error fault, place', pending⟩)
        (hp : ∀ n ∈ pending.outermost, (stmtOf source.toUTF8 n).Proper) :
        ∀ n ∈ (parse source).children,
          (stmtOf source.toUTF8 n).Proper ∨ ∃ d, stmtOf source.toUTF8 n = .bad d := by
      rw [h] at hdrive
      rw [parse_of_error (congrArg Outcome.result hdrive), hdrive, Node.children_assemble]
      intro n hn
      rcases List.mem_append.mp hn with hn | hn
      · exact .inl (hp n hn)
      · obtain rfl := List.mem_singleton.mp hn
        exact .inr (stmtOf_record _ _ _)
    rcases hcases with ⟨t, behind, request, pending, rfl, hfeed⟩ |
      ⟨request, pending, rfl, hfeed⟩ | ⟨root, rfl, hfeed⟩
    · have hstep := hlast.feed t
      rw [hfeed] at hstep
      exact hfault (by rw [drive, hfeed]) hstep
    · have hstep := hlast.feed (.eof place.stop)
      rw [hfeed] at hstep
      exact hfault (by rw [drive, hfeed]) hstep
    · have hstep := hlast.feed (.eof place.stop)
      rw [hfeed] at hstep
      have hok : drive place last [] = ⟨.ok root, { place with ahead := [] }, []⟩ := by
        rw [drive, hfeed]
      rw [hok] at hdrive
      rw [parse_of_ok (congrArg Outcome.result hdrive)]
      exact fun n hn => .inl (hstep n hn)
  refine stmtsOf_allOver fun n hn => ?_
  rcases hchildren n hn with hproper | ⟨d, hbad⟩
  · exact hproper.mono proper_implies_upToFaults
  · rw [hbad]
    trivial

end Grammar
end BlockC
