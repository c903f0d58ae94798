import BlockC.Proofs.DiagnosticPlaces
import BlockC.Proofs.Precedence
import BlockC.Proofs.StatementSeam

/-! # What is missing can be supplied

Where a text ends too early, the report names what was required there.  A stack that is stuck before
the end of the text wants a token of some kind (`Request.Wants`), and takes every token of that kind
(`feed_wants`): frames that were complete before the end are complete before that token too, since
what is required behind a node never goes on with it.  So a text that goes on with what was missing
has no error: it is complete, or something is missing behind it again (`missing_token_continues`).
-/
namespace BlockC
namespace Grammar

/-! ### What a frame wants -/

/-- What is required, and the kind of a token that it can be or start with. -/
inductive Request.Wants : Request → Kind → Prop
  | token {k : Kind} (h : k.Required) : Wants (.token k) k
  | expr : Wants .expr .identifier
  | typeExpr : Wants .typeExpr .identifier

/-- A kind of token that a production can start with, if a part asks for it. -/
def Production.starts (p : Production) : Kind :=
  if p = .codeblock then .keyword .doKw
  else if p = .typeList ∨ p = .params then .punct .openParen
  else .identifier

/-- A part that asks for something, whatever the next token is. -/
def Part.Firm : Part → Prop
  | .token k _ => k.Required
  | .node p _ => p.Asked
  | .hole _ | .choice _ => False

/-- A kind of token that a firm part goes on with. -/
def Part.wanted : Part → Kind
  | .token k _ => k
  | .node p _ => p.starts
  | .hole _ | .choice _ => .eof

section
variable {e : Token} {request : Request} {kind : String} {done : List Node}

/-- A production that is asked for at the end of the text wants the token that it can start with. -/
theorem begin_wants {p : Production} (hp : p.Asked) (he : EndOfText e) :
    ∃ request, p.begin e = .error request ∧ request.Wants p.starts ∧
      ∀ t : Token, t.kind = p.starts → ∃ frames, p.begin t = .ok frames := by
  have heof : e.kind = .eof := he
  cases p with
  | expr above =>
    refine ⟨.expr, ?_, .expr, fun t ht => ?_⟩
    · simp [Production.begin, exprFrom, heof, Kind.isLiteral, Kind.isSign]
    · have hk : t.kind = .identifier := ht
      simp [Production.begin, exprFrom, hk, Kind.isLiteral]
  | stmt =>
    refine ⟨.expr, ?_, .expr, fun t ht => ?_⟩
    · simp [Production.begin, stmtFrom, stmtFrame?, exprFrom, heof, Kind.isLiteral, Kind.isSign,
        Except.map]
    · have hk : t.kind = .identifier := ht
      simp [Production.begin, stmtFrom, stmtFrame?, exprFrom, hk, Kind.isLiteral, Except.map]
  | typeExpr =>
    refine ⟨.typeExpr, ?_, .typeExpr, fun t ht => ?_⟩
    · simp [Production.begin, typeFrom, heof]
    · have hk : t.kind = .identifier := ht
      simp [Production.begin, typeFrom, hk]
  | typeList | params | typedIdent | codeblock | externalVariable =>
    refine ⟨.token _, ?_, .token ?_, fun t ht => ⟨_, if_pos ht⟩⟩
    · simp [Production.begin, requiring, heof]
      rfl
    · simp [Kind.Required, Production.starts, Keyword.isLiteral]
  | literal | name | signed | parenthesized | pointerType | arrayType | funcType | mod | declare
  | variadic | external | externalFunction | func | typeAlias | whileLoop | ifElse | returned =>
    exact hp.elim

/-- A firm part that the end of the text is refused for wants a token, and takes it. -/
theorem Part.Firm.wants {part : Part} {rest : List Part} (h : part.Firm) (he : EndOfText e)
    (hb : (Frame.partly kind done (part :: rest)).before e = .stuck request) :
    request.Wants part.wanted ∧ ∀ t : Token, t.kind = part.wanted →
      ∃ frames, (Frame.partly kind done (part :: rest)).before t = .shift frames := by
  have heof : e.kind = .eof := he
  cases part with
  | token k field =>
    simp only [Frame.before, settle, heof, Ne.symm (Kind.Required.known h).1, if_false] at hb
    cases hb
    exact ⟨.token h, fun t ht => ⟨_, before_token ht⟩⟩
  | node p field =>
    obtain ⟨request', hbegin, hwants, htakes⟩ := begin_wants h he
    simp only [Frame.before, settle, hbegin] at hb
    cases hb
    refine ⟨hwants, fun t ht => ?_⟩
    obtain ⟨frames, hframes⟩ := htakes t ht
    exact ⟨_, before_node hframes⟩
  | hole field | choice c => exact h.elim

/-- A choice for which something is read before the end of the text asks for it. -/
theorem firm_of_expand {c : Choice} {part : Part} {rest : List Part}
    (h : c.expand .eof ++ c.behind = part :: rest) : part.Firm := by
  cases c <;> cases h <;>
    simp [Part.Firm, Part.mark, Part.word, Production.Asked, Kind.Required, Keyword.isLiteral]

/-- A choice that goes on in the same way before the end of the text and before the token that it
wants there. -/
theorem choice_wants {c : Choice} {part : Part} {rest : List Part} (he : EndOfText e)
    (hlist : c.expand .eof ++ c.behind = part :: rest)
    (hname : c.rename? .eof = none ∧ c.rename? part.wanted = none)
    (hsame : c.expand part.wanted = c.expand .eof)
    (hb : (Frame.partly kind done (.choice c :: c.behind)).before e = .stuck request) :
    request.Wants part.wanted ∧ ∀ t : Token, t.kind = part.wanted →
      ∃ frames, (Frame.partly kind done (.choice c :: c.behind)).before t = .shift frames := by
  have heof : e.kind = .eof := he
  have hfirm := firm_of_expand hlist
  have hopen : startsOpen (part :: rest) = false := by
    cases part with
    | token | node | hole => rfl
    | choice => exact hfirm.elim
  rw [before_choice (by rw [heof, hname.1]) (by rw [heof, hlist, hopen]), heof, hlist] at hb
  obtain ⟨hwants, htakes⟩ := hfirm.wants he hb
  refine ⟨hwants, fun t ht => ?_⟩
  rw [before_choice (by rw [ht, hname.2]) (by rw [ht, hsame, hlist, hopen]), ht, hsame, hlist]
  exact htakes t ht

/-- A frame that the end of the text is refused for wants a token, and takes it.  What it wants
behind a node goes on with nothing. -/
theorem partly_wants {todo : List Part} (hr : Regular todo) (he : EndOfText e)
    (hb : (Frame.partly kind done todo).before e = .stuck request) :
    ∃ k, request.Wants k ∧ (Closes todo → ∀ t : Token, t.kind = k → Quiet t) ∧
      ∀ t : Token, t.kind = k →
        ∃ frames, (Frame.partly kind done todo).before t = .shift frames := by
  have hclosing {k : Kind} (hk : k ∈ closingKinds) (t : Token) (ht : t.kind = k) : Quiet t :=
    Closing.quiet (by rwa [Closing, ht])
  cases todo with
  | nil => simp [before_nil] at hb
  | cons part rest =>
    cases part with
    | token k field =>
      have hfirm : (Part.token k field).Firm := hr.1
      obtain ⟨hwants, htakes⟩ := hfirm.wants he hb
      exact ⟨k, hwants, fun hc => hclosing hc, htakes⟩
    | node p field =>
      have hfirm : (Part.node p field).Firm := hr.1
      obtain ⟨hwants, htakes⟩ := hfirm.wants he hb
      refine ⟨p.starts, hwants, fun hc => ?_, htakes⟩
      obtain rfl : p = .codeblock := hc
      exact hclosing (by decide)
    | hole field => exact hr.elim
    | choice c =>
      obtain ⟨hfile, rfl⟩ := hr
      cases c with
      | topLevel => exact absurd rfl hfile
      | segments | initial | otherwise =>
        simp [Frame.before, settle, show e.kind = .eof from he, Choice.expand, Choice.behind] at hb
      | arguments | types | size | alternative | externalForm | parameters | parameter =>
        obtain ⟨hwants, htakes⟩ := choice_wants he rfl ⟨rfl, rfl⟩ rfl hb
        exact ⟨_, hwants, by simp [Closes], htakes⟩
      | moreArguments | moreTypes | statements =>
        obtain ⟨hwants, htakes⟩ := choice_wants he rfl ⟨rfl, rfl⟩ rfl hb
        exact ⟨_, hwants, fun _ => hclosing (by decide), htakes⟩
      | moreParameters =>
        obtain ⟨hwants, htakes⟩ := choice_wants he rfl ⟨rfl, rfl⟩ rfl hb
        refine ⟨_, hwants, fun _ t ht => ?_, htakes⟩
        have hk : t.kind = .punct .comma := ht
        simp [Quiet, Stops, hk, Kind.behindOperand?, Punct.behindOperand?]

/-! ### What a stack wants -/

/-- A frame that has just got a node: what it wants next stands behind one. -/
def Frame.Handed : Frame → Prop
  | .partly _ _ todo => Closes todo ∨ todo = [.choice .topLevel]
  | .operators _ _ | .operand _ | .complete _ => True

theorem Waiting.handed {g : Frame} {below : Stack} (h : Waiting (g :: below)) (n : Node) :
    (g.fill n).Handed := by
  cases h with
  | file => exact Or.inr rfl
  | partly hc _ _ => exact Or.inl hc
  | operand _ => trivial

/-- **A stack that is stuck before the end of the text wants a token, and takes every token of its
kind.** -/
theorem feed_wants {f : Frame} {below pending : Stack} (he : EndOfText e)
    (h : Resting (f :: below)) (hstuck : feed e (f :: below) = .stuck request pending) :
    ∃ k, request.Wants k ∧ (f.Handed → ∀ t : Token, t.kind = k → Quiet t) ∧
      ∀ t : Token, t.kind = k → ∃ next, feed t (f :: below) = .shift next := by
  -- Down the stack: the frames above the one that is stuck are complete, also before a quiet token.
  induction below generalizing f with
  | nil =>
    cases h with
    | file => simp [feed_file he] at hstuck
    | partly _ h => cases h
    | operators h => cases h
  | cons g below ih =>
    cases hb : f.before e with
    | shift frames => simp [feed, hb] at hstuck
    | complete node =>
      rw [feed_of_complete hb] at hstuck
      obtain ⟨k, hwants, hquiet, htakes⟩ := ih (h.waiting.fill node) hstuck
      have hquiet := hquiet (h.waiting.handed node)
      refine ⟨k, hwants, fun _ => hquiet, fun t ht => ?_⟩
      rw [feed_of_complete (before_quiet (hquiet t ht) h (List.cons_ne_nil _ _) hb)]
      exact htakes t ht
    | stuck request' =>
      simp only [feed, hb] at hstuck
      cases hstuck
      cases h with
      | operators _ => simp [Frame.before, show e.kind = .eof from he, Kind.behindOperand?] at hb
      | partly hr _ =>
        obtain ⟨k, hwants, hquiet, htakes⟩ := partly_wants hr he hb
        refine ⟨k, hwants, fun hf => ?_, fun t ht => ?_⟩
        · rcases hf with hc | rfl
          · exact hquiet hc
          · exact absurd rfl hr.1
        · obtain ⟨frames, hframes⟩ := htakes t ht
          exact ⟨frames ++ g :: below, by simp [feed, hframes]⟩

end

/-! ### A text whose tokens are all taken -/

/-- **A text whose tokens are all taken is in order, or ends in a placeholder for what its stack is
stuck for.** -/
theorem shape_of_takes {source : String} {last : Stack}
    (h : Takes (tokens source) [sourceFile] last) :
    (parse source).Clean ∨ ∃ stop request pending stmts final m,
      feed (.eof stop) last = .stuck request pending ∧ (tokens source).getLast? = some final ∧
        FileShape source stmts (some (.absent request.kind request.named final.span.stop)) m := by
  have hresting := (h.resting resting_sourceFile).2
  obtain ⟨place, -, hdrive⟩ := drive_of_takes h [] (Stream.ofString source)
  rw [List.append_nil] at hdrive
  cases hfeed : feed (.eof place.stop) last with
  | done root => exact Or.inl (clean_of_ok h (by rw [hdrive, drive, hfeed]))
  | shift next =>
    cases last with
    | nil => cases hresting
    | cons f below => exact absurd rfl (feed_resting hresting hfeed).1.1
  | stuck request pending =>
    have hr : (drive (Stream.ofString source) [sourceFile] (tokens source)).result =
        .error (.missing request.kind request.named { place with ahead := [] }.lastEnd) := by
      rw [hdrive, drive, hfeed]
      rfl
    obtain ⟨stmts, fault, m, hshape⟩ := exists_fileShape source
    have hchildren := children_of_error hr
    rw [hshape.root, Node.assemble, Node.children_mk] at hchildren
    cases fault with
    | none =>
      -- The placeholder is no statement, since those are in order.
      have hmem : Node.absent request.kind request.named { place with ahead := [] }.lastEnd ∈
          stmts := by
        rw [Option.toList_none, List.append_nil] at hchildren
        rw [hchildren]
        exact List.mem_append_right _ (List.mem_singleton_self _)
      exact absurd (hshape.nodes _ hmem).2.1.1 (by simp)
    | some n =>
      obtain rfl := List.singleton_inj.mp (List.append_inj_right' hchildren rfl)
      rcases hshape.ending with ⟨i, -, -, herror⟩ | ⟨kind, named, final, hfinal, habsent⟩
      · exact absurd (congrArg (·.head.missing) herror) (by simp [Fault.record, Node.absent,
          Node.assemble])
      · refine Or.inr ⟨_, _, _, stmts, final, m, hfeed, hfinal, ?_⟩
        have hspan := congrArg (·.head.span.start) habsent
        simp only [Fault.record, Node.absent, Node.head_mk] at hspan
        rw [← hspan]
        exact hshape

/-- A placeholder behind the statements is what the check reports. -/
theorem FileShape.check_absent {source kind : String} {stmts : List Node} {named : Bool}
    {pos : Position} {m : Nat} (h : FileShape source stmts (some (.absent kind named pos)) m) :
    (parse source).check source.toUTF8 = .error ⟨.missingSyntax kind, pos⟩ := by
  rw [Node.check, h.firstDefect?, Option.toList_some, Node.absent, Node.firstDefect?]
  rfl

/-- If something is missing in a text, all its tokens are taken. -/
theorem takes_of_missing {source expected : String} {pos : Position}
    (h : (parse source).check source.toUTF8 = .error ⟨.missingSyntax expected, pos⟩) :
    ∃ last, Takes (tokens source) [sourceFile] last := by
  have hplace : EndsInPlaceholder source := by
    obtain ⟨stmts, fault, m, hshape⟩ := exists_fileShape source
    have hending := hshape.ending
    rw [Node.check, hshape.firstDefect?] at h
    cases fault with
    | none =>
      rw [Option.toList_none, Node.firstDefect?] at h
      cases h
    | some n =>
      rcases hending with ⟨i, -, -, rfl⟩ | ⟨kind, named, final, -, rfl⟩
      · rw [Option.toList_some, Node.assemble, Node.firstDefect?] at h
        cases h
      · exact ⟨stmts, _, by rw [hshape.root]; rfl, rfl⟩
  obtain ⟨taken, rest, last, htokens, htakes, hcases⟩ := parse_cases source
  rcases hcases with ⟨-, -, hnone⟩ | ⟨-, -, -, -, -, -, -, hnone, -⟩ | ⟨rfl, -, -⟩
  · exact absurd hplace hnone
  · exact absurd hplace hnone
  · rw [List.append_nil] at htokens
    exact ⟨last, htokens ▸ htakes⟩

end Grammar

/-! ### A token behind a text -/

namespace Lexical

/-- No token of a run of the scanner is longer than the text. -/
theorem Scans.length_le {s rest : List Char} {ws : List Word} (h : Scans s ws rest) :
    ∀ w ∈ ws, w.2.length ≤ s.length := by
  induction h with
  | done => simp
  | @token c cs behind rest l kind ws next kept _ ih =>
    have hsplit := (nextLexeme_sound c cs).1
    rw [next] at hsplit
    rw [hsplit, List.length_append, List.forall_mem_cons, String.length_ofList]
    exact ⟨Nat.le_add_right _ _, fun w hw => (ih w hw).trans (Nat.le_add_left _ _)⟩
  | skip next _ _ ih =>
    exact fun w hw => (ih w hw).trans (Nat.le_succ_of_le (length_behind next))

/-- The text of one token is scanned as this token. -/
theorem scan_lexeme {w : Word} (h : w.Spelled) (pos : Position) :
    scan w.2.toList pos = [⟨w.1, w.2, ⟨pos, pos.after w.2.toList⟩⟩] := by
  have hrun : Scans (w.2.toList ++ []) [w] [] := scans_lexeme h (by simp [Breaks])
  rw [List.append_nil] at hrun
  obtain ⟨c, cs, hs, -⟩ := starts_lexeme h
  rw [hs] at hrun ⊢
  cases hrun with
  | @token _ _ behind _ l kind _ next kept _ =>
    -- The text of the lexeme is all of the text, so nothing is left behind it.
    rw [String.toList_ofList] at hs
    obtain rfl : behind = [] := by
      have hsplit := (nextLexeme_sound c cs).1
      rw [next, hs] at hsplit
      exact List.append_right_eq_self.mp hsplit.symm
    rw [scan_cons, next, hs]
    simp only [toToken?, kept, hs]
    rfl
  | @skip _ _ behind _ l _ next dropped run =>
    have hle := run.length_le w (List.mem_singleton_self w)
    have hbehind := length_behind next
    rw [← String.length_toList, hs, List.length_cons] at hle
    omega

end Lexical

open Grammar Lexical

/-- The tokens of a text come first when it goes on with one more token on a line of its own. -/
theorem tokens_behind {source : String} {last : Stack} {w : Word}
    (htakes : Takes (tokens source) [sourceFile] last) (h : w.Spelled) :
    ∃ start, tokens (source ++ "\n" ++ w.2) =
      tokens source ++ [⟨w.1, w.2, ⟨start, endOfText (source ++ "\n" ++ w.2)⟩⟩] := by
  have htext : (source ++ "\n" ++ w.2).toList = source.toList ++ '\n' :: w.2.toList := by
    simp [String.toList_append]
  have hstart : ∀ d, w.2.toList.head? = some d → Text.isBlank d = false := by
    obtain ⟨c, cs, hs, hc⟩ := starts_lexeme h
    intro d hd
    rw [hs] at hd
    exact Option.some.inj hd ▸ hc
  rcases tokens_behind_line htext hstart with heq | hopen
  · refine ⟨Position.origin.after (source.toList ++ ['\n']), ?_⟩
    rw [heq, scan_lexeme h, endOfText, htext, ← Position.after_append, List.append_assoc]
    rfl
  · exact absurd hopen (not_opensComment htakes)

/-! ### Going on with what is missing -/

/-- A text for one token of what is named as missing: a name for a name, an expression or a type, a
number for a number, and punctuation and reserved words as they are. -/
def Supplies (expected text : String) : Prop :=
  if expected ∈ ["ident", "expr", "type_expr"] then IsName text
  else if expected = "number_literal" then Pattern.Matches number text.toList
  else text = expected

section
variable {request : Request} {k : Kind}

/-- What is named as missing is supplied by the tokens of the kind that is wanted. -/
theorem Grammar.Request.Wants.supplies_iff (h : request.Wants k) (text : String) :
    Supplies request.kind text ↔ IsLexeme k text := by
  cases h with
  | expr | typeExpr => rfl
  | token hk =>
    cases k with
    | identifier | number => rfl
    | eof | unknown | string => exact hk.elim
    | punct p => cases p <;> rfl
    | keyword k => cases k <;> first | rfl | cases hk

theorem Grammar.Request.Wants.known (h : request.Wants k) : k.Known := by
  cases h with
  | expr | typeExpr => simp [Kind.Known]
  | token hk => exact hk.known

theorem Grammar.Request.Wants.kind_ne (h : request.Wants k) : request.kind ≠ Node.errorKind := by
  cases h with
  | expr | typeExpr => decide
  | token hk => exact tag_ne_errorKind hk.known.2

end

namespace Node

mutual

/-- There is no error in a tree that is in order. -/
theorem Clean.no_error : ∀ {n : Node}, n.Clean → ∀ m ∈ n.nodes, m.head.error = false
  | mk head children, h => by
    rw [nodes, List.forall_mem_cons]
    exact ⟨h.2.1, AllClean.no_error h.2.2⟩

theorem AllClean.no_error : ∀ {ns : List Node}, AllClean ns → ∀ m ∈ nodesOf ns, m.head.error = false
  | [], _ => by simp [nodesOf]
  | n :: ns, h => by
    rw [nodesOf, List.forall_mem_append]
    exact ⟨Clean.no_error h.1, AllClean.no_error h.2⟩

end

end Node

/-- There is no error in a file whose statements are followed by a placeholder. -/
theorem Grammar.FileShape.no_error {source kind : String} {stmts : List Node} {named : Bool}
    {pos : Position} {m : Nat} (h : FileShape source stmts (some (.absent kind named pos)) m)
    (hkind : kind ≠ Node.errorKind) : ∀ n ∈ (parse source).nodes, n.head.error = false := by
  rw [h.root, Node.assemble, Node.nodes, List.forall_mem_cons]
  refine ⟨rfl, fun n hn => ?_⟩
  obtain ⟨stmt, hstmt, hn⟩ := Node.mem_nodesOf.mp hn
  rcases List.mem_append.mp hstmt with hstmt | hstmt
  · exact (h.nodes stmt hstmt).2.1.no_error n hn
  · obtain rfl : stmt = .absent kind named pos := by simpa using hstmt
    obtain rfl : n = .absent kind named pos := by
      simpa [Node.absent, Node.nodes, Node.nodesOf] using hn
    simpa [Node.absent] using hkind

/-- A text whose tokens are all taken has no error: it is in order, or something is missing right
behind its last token, and then one more token of some kind is taken. -/
theorem missing_of_takes {source : String} {last : Stack}
    (h : Takes (tokens source) [sourceFile] last) :
    (∀ n ∈ (parse source).nodes, n.head.error = false) ∧
      ((parse source).check source.toUTF8 = .ok () ∨
        ∃ (stmts : List Node) (request : Request) (k : Kind) (final : Token),
          (tokens source).getLast? = some final ∧
          (parse source).children =
            stmts ++ [Node.absent request.kind request.named final.span.stop] ∧
          (parse source).check source.toUTF8 =
            .error ⟨.missingSyntax request.kind, final.span.stop⟩ ∧
          request.Wants k ∧ ∀ t : Token, t.kind = k → ∃ next, feed t last = .shift next) := by
  rcases shape_of_takes h with
    hclean | ⟨stop, request, pending, stmts, final, m, hstuck, hfinal, hshape⟩
  · exact ⟨hclean.no_error, Or.inl (Node.check_eq_ok_iff.mpr hclean)⟩
  · have hresting := (h.resting resting_sourceFile).2
    have hend : EndOfText (.eof stop) := rfl
    cases last with
    | nil => cases hresting
    | cons f below =>
      obtain ⟨k, hwants, -, hshift⟩ := feed_wants hend hresting hstuck
      refine ⟨hshape.no_error hwants.kind_ne, Or.inr ⟨stmts, request, k, final, hfinal, ?_,
        hshape.check_absent, hwants, hshift⟩⟩
      rw [hshape.root]
      rfl

/-- **What is named as missing can be supplied.**  If something is missing in a text, there is a
token for it.  With any such token on a line of its own behind the text there is no error, and all
is in order or something is missing right behind that token. -/
theorem missing_token_continues {source expected : String} {pos : Position}
    (h : (parse source).check source.toUTF8 = .error ⟨.missingSyntax expected, pos⟩) :
    (∃ text, Supplies expected text) ∧
    ∀ text longer, Supplies expected text → longer = source ++ "\n" ++ text →
      ∃ t, tokens longer = tokens source ++ [t] ∧ t.value = text ∧ t.span.stop = endOfText longer ∧
        (∀ n ∈ (parse longer).nodes, n.head.error = false) ∧
        ((parse longer).check longer.toUTF8 = .ok () ∨
          ∃ stmts kind named, (parse longer).children = stmts ++ [.absent kind named t.span.stop] ∧
            (parse longer).check longer.toUTF8 = .error ⟨.missingSyntax kind, t.span.stop⟩) := by
  obtain ⟨last, htakes⟩ := takes_of_missing h
  rcases (missing_of_takes htakes).2 with hok | ⟨-, request, k, final, -, -, hcheck, hwants, hshift⟩
  · rw [hok] at h
    cases h
  obtain rfl : request.kind = expected := by
    rw [hcheck] at h
    cases h
    rfl
  refine ⟨?_, ?_⟩
  · obtain ⟨t, rfl, hspelled⟩ := exists_token hwants.known
    exact ⟨t.value, (hwants.supplies_iff _).mpr hspelled.1⟩
  rintro text longer htext rfl
  have hspelled : Word.Spelled (k, text) := ⟨(hwants.supplies_iff text).mp htext, hwants.known.2⟩
  obtain ⟨start, htokens⟩ := tokens_behind htakes hspelled
  obtain ⟨next, hnext⟩ := hshift ⟨k, text, ⟨start, endOfText (source ++ "\n" ++ text)⟩⟩ rfl
  -- The token is taken where the end was refused, so all tokens of the longer text are.
  have hone : Takes [_] last next := ⟨next, hnext, rfl⟩
  obtain ⟨hnoError, hcases⟩ := missing_of_takes (htokens ▸ htakes.append hone)
  refine ⟨_, htokens, rfl, rfl, hnoError, hcases.imp_right ?_⟩
  rintro ⟨stmts, request', -, final', hfinal, hchildren, hcheck', -, -⟩
  rw [htokens, List.getLast?_append_of_ne_nil _ (List.cons_ne_nil _ _)] at hfinal
  obtain rfl := Option.some.inj hfinal
  exact ⟨stmts, request'.kind, request'.named, hchildren, hcheck'⟩

/-- A call in a loop lacks its parenthesis; with it, the loop still lacks its block. -/
theorem missing_token_continues_call :
    (parse "while a + f(1").check "while a + f(1".toUTF8 =
      .error ⟨.missingSyntax ")", ⟨0, 13, 13⟩⟩ ∧
    ∃ t, tokens "while a + f(1\n)" = tokens "while a + f(1" ++ [t] ∧ t.value = ")" ∧
      t.span.stop = endOfText "while a + f(1\n)" ∧
      (∀ n ∈ (parse "while a + f(1\n)").nodes, n.head.error = false) ∧
      ((parse "while a + f(1\n)").check "while a + f(1\n)".toUTF8 = .ok () ∨
        ∃ stmts kind named,
          (parse "while a + f(1\n)").children = stmts ++ [.absent kind named t.span.stop] ∧
          (parse "while a + f(1\n)").check "while a + f(1\n)".toUTF8 =
            .error ⟨.missingSyntax kind, t.span.stop⟩) := by
  have h : (parse "while a + f(1").check "while a + f(1".toUTF8 =
      .error ⟨.missingSyntax ")", ⟨0, 13, 13⟩⟩ := by
    have hroot : parse "while a + f(1" =
        .assemble "source_file" .origin [.absent ")" false ⟨0, 13, 13⟩] := rfl
    simp [Node.check, hroot, Node.assemble, Node.absent, Node.firstDefect?, Node.defect?,
      Node.errorKind]
  exact ⟨h, (missing_token_continues h).2 ")" _ (by simp [Supplies]) rfl⟩

end BlockC
