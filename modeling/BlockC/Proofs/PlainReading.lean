import BlockC.Proofs.PlainProgram

/-! # Reading plain programs

The parser reads the tokens of a plain program as that program.  An expression ends where the next
token holds no tighter than what the expression ends with (`Plain.Expr.trailing`); a type ends where
no dot follows; a statement ends with the semicolon behind it.
-/
namespace BlockC
namespace Plain.Expr

/-- The level at which the expression ends: operators that hold tighter would go on inside it. -/
def trailing : Expr → Level
  | .assignment _ _ _ => .lowest
  | .condition _ _ _ => .assignment
  | .binary _ op _ => op.level
  | .unary _ _ => .unary
  | _ => .call

theorem trailing_eq_level {x : Expr} (h : x.Tighter .conditional) : x.trailing = x.level := by
  cases x with
  | assignment | condition => simp [Tighter, level, Level.rank] at h
  | _ => rfl

/-- Assignments and conditions end one level looser than they hold, everything else does not. -/
theorem level_le_trailing (x : Expr) : x.level.rank ≤ x.trailing.rank + 1 := by
  cases x <;> simp [level, trailing, Level.rank]

theorem level_pos (x : Expr) : 0 < x.level.rank := by
  cases x with
  | binary _ op _ => exact Nat.lt_trans (by decide) op.level_between.1
  | _ => simp [level, Level.rank]

/-- A token that may stand behind the expression. -/
def Follows (x : Expr) (t : Token) : Prop :=
  Grammar.NoDot t ∧ Grammar.Level.Ends x.trailing t

/-- The expression can be read where only operators that hold tighter than the level are taken.  A
sign is read at every level. -/
def ReadableAt (x : Expr) (above : Level) : Prop :=
  above.rank < Level.call.rank ∧ (x.Tighter above ∨ x.AtLeast .unary)

theorem readableAt_lowest (x : Expr) : x.ReadableAt .lowest :=
  ⟨by decide, Or.inl x.level_pos⟩

end Plain.Expr

namespace Grammar

open Surface

theorem Level.Ends.mono {l m : Level} {t : Token} (h : Level.Ends l t) (hle : l.rank ≤ m.rank) :
    Level.Ends m t :=
  fun level role hop => Nat.le_trans (h level role hop) hle

theorem Stops.followsPlain {t : Token} (h : Stops t) (x : Plain.Expr) : x.Follows t :=
  ⟨h.1, h.ends _⟩

section
variable {source : ByteArray}

/-! ### Expressions -/

/-- The tokens of the expression are read as the expression. -/
def ReadsPlain (source : ByteArray) (x : Plain.Expr) : Prop :=
  ∀ above, x.ReadableAt above → ∀ ts : List Token, ts.map Token.word = x.words →
    (∀ t ∈ ts, t.StandsIn source) → ReadsAs source above x.Follows ts (·.plain? = some x)

theorem reads_plain_binary {left right : Plain.Expr} {op : BinaryOp}
    (hl : ReadsPlain source left) (hr : ReadsPlain source right) (hleft : left.AtLeast op.level)
    (hright : right.Tighter op.level) : ReadsPlain source (.binary left op right) := by
  intro above habove ts hts hstand
  obtain ⟨ls, rest, rfl, hls, hrest⟩ := List.map_eq_append_iff.mp hts
  obtain ⟨t, rs, rfl, ht, hrs⟩ := List.map_eq_cons_iff.mp hrest
  have hk : t.kind = .punct op.punct := congrArg Prod.fst ht
  have hops := op.level_between
  have hlevel : above.rank < op.level.rank := by
    rcases habove.2 with h | h
    · exact h
    · exact absurd hops.2 (Nat.not_lt.mpr h)
  -- The operator may stand behind the left side, since that side holds at least as tight.
  have hfollows : left.Follows t := by
    refine ⟨?_, fun l role hop => ?_⟩
    · rw [NoDot, hk]
      cases op <;> decide
    · rw [hk, op.behindOperand] at hop
      cases hop
      rw [Plain.Expr.trailing_eq_level (Nat.lt_of_lt_of_le hops.1 hleft)]
      exact hleft
  have hreadl := hl above ⟨habove.1, Or.inl (Nat.lt_of_lt_of_le hlevel hleft)⟩ ls hls
    fun u hu => hstand u (by simp [hu])
  have hreadr := hr op.level ⟨Nat.lt_trans hops.2 (by decide), Or.inl hright⟩ rs hrs
    fun u hu => hstand u (by simp [hu])
  have hread : ReadsAs source above _ _ (·.plain? = some (.binary left op right)) :=
    reads_binary (hstand t (by simp)) hk hlevel hreadl hfollows hreadr
      fun l r span hl hr => by simp [Expr.plain?, hl, hr]
  refine hread.mono fun u hu => ⟨⟨hu.1, hu.2.mono ?_⟩, hu.2⟩
  rw [Plain.Expr.trailing_eq_level (Nat.lt_trans hops.1 hright)]
  exact Nat.le_of_lt hright

theorem reads_plain_unary {op : UnaryOp} {argument : Plain.Expr} (h : ReadsPlain source argument)
    (harg : argument.AtLeast .unary) : ReadsPlain source (.unary op argument) := by
  intro above habove ts hts hstand
  obtain ⟨t, rest, rfl, ht, hrest⟩ := List.map_eq_cons_iff.mp hts
  have hargument := h .unary ⟨by decide, Or.inr harg⟩ rest hrest fun u hu => hstand u (by simp [hu])
  have hread : ReadsAs source above _ _ (·.plain? = some (.unary op argument)) :=
    reads_unary (hstand t (by simp)) (congrArg Prod.fst ht) hargument
      fun e span he => by simp [Expr.plain?, he]
  refine hread.mono fun u hu => ⟨⟨hu.1, hu.2.mono ?_⟩, hu.2⟩
  rw [Plain.Expr.trailing_eq_level (Nat.lt_of_lt_of_le (by decide) harg)]
  exact harg

theorem reads_plain_assignment {left right : Plain.Expr} {op : AssignOp}
    (hl : ReadsPlain source left) (hr : ReadsPlain source right)
    (hleft : left.Tighter .assignment) : ReadsPlain source (.assignment left op right) := by
  intro above habove ts hts hstand
  obtain ⟨ls, rest, rfl, hls, hrest⟩ := List.map_eq_append_iff.mp hts
  obtain ⟨t, rs, rfl, ht, hrs⟩ := List.map_eq_cons_iff.mp hrest
  have hk : t.kind = .punct op.punct := congrArg Prod.fst ht
  have hlevel : above.rank < Level.assignment.rank := by
    rcases habove.2 with h | h
    · exact h
    · simp [Plain.Expr.AtLeast, Plain.Expr.level, Level.rank] at h
  have hfollows : left.Follows t := by
    refine ⟨?_, fun l role hop => ?_⟩
    · rw [NoDot, hk]
      cases op <;> decide
    · rw [hk, op.behindOperand] at hop
      cases hop
      exact Nat.le_of_succ_le_succ (Nat.le_trans hleft left.level_le_trailing)
  have hreadl := hl above ⟨habove.1, Or.inl (Nat.lt_trans hlevel hleft)⟩ ls hls
    fun u hu => hstand u (by simp [hu])
  have hreadr := hr .lowest right.readableAt_lowest rs hrs
    fun u hu => hstand u (by simp [hu])
  have hread : ReadsAs source above _ _ (·.plain? = some (.assignment left op right)) :=
    reads_assignment (hstand t (by simp)) hk hlevel hreadl hfollows hreadr
      fun l r span hl hr => by simp [Expr.plain?, hl, hr]
  exact hread.mono fun u hu => ⟨⟨hu.1, hu.2.mono (Nat.zero_le _)⟩, hu.2⟩

theorem reads_plain_condition {test yes no : Plain.Expr} (ht : ReadsPlain source test)
    (hy : ReadsPlain source yes) (hn : ReadsPlain source no) (htest : test.Tighter .conditional)
    (hno : no.AtLeast .conditional) : ReadsPlain source (.condition test yes no) := by
  intro above habove ts hts hstand
  obtain ⟨cs, rest, rfl, hcs, hrest⟩ := List.map_eq_append_iff.mp hts
  obtain ⟨question, rest, rfl, hq, hrest⟩ := List.map_eq_cons_iff.mp hrest
  obtain ⟨ys, rest, rfl, hys, hrest⟩ := List.map_eq_append_iff.mp hrest
  obtain ⟨colon, ns, rfl, hc, hns⟩ := List.map_eq_cons_iff.mp hrest
  have hkq : question.kind = .punct .question := congrArg Prod.fst hq
  have hkc : colon.kind = .punct .colon := congrArg Prod.fst hc
  have hlevel : above.rank < Level.conditional.rank := by
    rcases habove.2 with h | h
    · exact h
    · simp [Plain.Expr.AtLeast, Plain.Expr.level, Level.rank] at h
  have hfollows : test.Follows question := by
    refine ⟨by simp [NoDot, hkq], fun l role hop => ?_⟩
    rw [hkq] at hop
    cases hop
    rw [Plain.Expr.trailing_eq_level htest]
    exact Nat.le_of_lt htest
  have hreadt := ht above ⟨habove.1, Or.inl (Nat.lt_trans hlevel htest)⟩ cs hcs
    fun u hu => hstand u (by simp [hu])
  have hready := hy .lowest yes.readableAt_lowest ys hys
    fun u hu => hstand u (by simp [hu])
  have hreadn := hn .assignment ⟨by decide, Or.inl (Nat.lt_of_lt_of_le (by decide) hno)⟩ ns hns
    fun u hu => hstand u (by simp [hu])
  have hcolon : yes.Follows colon := (stops_of_kind hkc (by decide) rfl).followsPlain yes
  have hread : ReadsAs source above _ _ (·.plain? = some (.condition test yes no)) :=
    reads_condition hkq hkc hlevel hreadt hfollows hready hcolon hreadn
      fun e f g span he hf hg => by simp [Expr.plain?, he, hf, hg]
  refine hread.mono fun u hu => ⟨⟨hu.1, hu.2.mono ?_⟩, hu.2⟩
  exact Nat.le_of_succ_le_succ (Nat.le_trans hno no.level_le_trailing)

mutual

/-- **The tokens of a plain expression are read as that expression.** -/
theorem reads_plain : ∀ x : Plain.Expr, x.Proper → ReadsPlain source x
  | .name path, h => fun above _ ts hts hstand =>
    (reads_name path h.1 hts hstand fun _ => rfl).mono fun _ ht => ht.1
  | .number value, _ => fun above _ ts hts hstand => by
    obtain ⟨t, rfl, ht⟩ := List.map_eq_singleton_iff.mp hts
    obtain ⟨hk, hv⟩ := Prod.mk.inj ht
    exact reads_number (hstand t (by simp)) hk hv fun _ => rfl
  | .string text, _ => fun above _ ts hts hstand => by
    obtain ⟨t, rfl, ht⟩ := List.map_eq_singleton_iff.mp hts
    obtain ⟨hk, rfl⟩ := Prod.mk.inj ht
    exact reads_string (hstand t (by simp)) hk fun _ => rfl
  | .boolean true, _ | .boolean false, _ | .null, _ => fun above _ ts hts _ => by
    obtain ⟨t, rfl, ht⟩ := List.map_eq_singleton_iff.mp hts
    exact reads_keyword (congrArg Prod.fst ht) rfl rfl
  | .binary left op right, h =>
    reads_plain_binary (reads_plain left h.1) (reads_plain right h.2.1) h.2.2.1 h.2.2.2
  | .unary op argument, h => reads_plain_unary (reads_plain argument h.1) h.2
  | .condition test yes no, h =>
    reads_plain_condition (reads_plain test h.1) (reads_plain yes h.2.1) (reads_plain no h.2.2.1)
      h.2.2.2.1 h.2.2.2.2
  | .call callee args, h => fun above habove ts hts hstand => by
    obtain ⟨cs, rest, rfl, hcs, hrest⟩ := List.map_eq_append_iff.mp hts
    obtain ⟨opening, inner, closing, rfl, ho, hc, hinner⟩ := split_grouped hrest
    have hargs := reads_plain_args args h.2 inner hinner fun u hu => hstand u (by simp [hu])
    exact reads_call callee h.1.1 hcs (fun u hu => hstand u (by simp [hu])) ho hc habove.1 hargs
      fun es place span (hs : Expr.plains? es = some args) => by simp [Expr.plain?, hs]
  | .assignment left op right, h =>
    reads_plain_assignment (reads_plain left h.1) (reads_plain right h.2.1) h.2.2
  | .parenthesized inner, h => fun above _ ts hts hstand => by
    obtain ⟨opening, ws, closing, rfl, ho, hc, hws⟩ := split_grouped hts
    have hinner := reads_plain inner h .lowest inner.readableAt_lowest ws hws
      fun u hu => hstand u (by simp [hu])
    exact reads_group hinner ho hc ((stops_of_kind hc (by decide) rfl).followsPlain inner)
      fun e span he => by simp [Expr.plain?, he]

/-- The arguments of a call are read one by one. -/
theorem reads_plain_args : ∀ xs : List Plain.Expr, Plain.Expr.AllProper xs → ∀ ts : List Token,
    ts.map Token.word = Plain.commaWords (Plain.Expr.itemWords xs) →
    (∀ t ∈ ts, t.StandsIn source) →
    ts = [] ∧ Expr.plains? [] = some xs ∨ ReadsList source ts (Expr.plains? · = some xs)
  | [], _, ts, hts, _ => Or.inl ⟨List.map_eq_nil_iff.mp hts, rfl⟩
  | [x], h, ts, hts, hstand => by
    have hx := reads_plain x h.1 .lowest x.readableAt_lowest ts hts hstand
    exact Or.inr (.last (hx.mono fun t ht => ht.followsPlain x)
      fun e he => by simp [Expr.plains?, he])
  | x :: y :: rest, h, ts, hts, hstand => by
    obtain ⟨us, behind, rfl, hus, hbehind⟩ := List.map_eq_append_iff.mp hts
    obtain ⟨comma, vs, rfl, hc, hvs⟩ := List.map_eq_cons_iff.mp hbehind
    have hx := reads_plain x h.1 .lowest x.readableAt_lowest us hus
      fun u hu => hstand u (by simp [hu])
    rcases reads_plain_args (y :: rest) h.2 vs hvs fun u hu => hstand u (by simp [hu]) with
      ⟨-, hnil⟩ | hlist
    · cases hnil
    · exact Or.inr (.more (hx.mono fun t ht => ht.followsPlain x) (congrArg Prod.fst hc) hlist
        fun e es he hs => by simp [Expr.plains?, he, hs])

end

/-! ### Types -/

/-- The tokens are read as the type. -/
def ReadsType (source : ByteArray) (ts : List Token) (x : Plain.TypeExpr) : Prop :=
  ∃ n type, n.named = true ∧ typeOf source n = .ok type ∧ type.plain = x ∧
    Reads .typeExpr NoDot ts n

/-- A type by the form under its wrapper. -/
theorem readsType_of_form {t : Token} {ts : List Token} {f : Frame} {form : Node} {type : TypeExpr}
    (ht : typeFrom t = .ok [f, .partly "type_expr" [] [.hole none]])
    (h : Completes [f] NoDot ts form) (hread : typeInside source [form] = some (.ok type)) :
    ReadsType source (t :: ts) type.plain :=
  ⟨_, type, rfl, typeOf_wrapper _ ((typeInside_inField form none).trans hread), rfl,
    (h.wrapped "type_expr").reads ht⟩

theorem readsType_name {path : List String} {ts : List Token} (hne : path ≠ [])
    (hts : ts.map Token.word = pathWords path) (hstand : ∀ t ∈ ts, t.StandsIn source) :
    ReadsType source ts (.name path) := by
  obtain ⟨t, rest, rfl, hk, hsegments, hpath⟩ := split_path hne hts hstand
  have hfrom : typeFrom t = .ok [nameFrom t, .partly "type_expr" [] [.hole none]] := by
    simp [typeFrom, hk]
  exact readsType_of_form hfrom (fills_segments hsegments).opened (typeInside_name hpath)

theorem ReadsType.pointer {t : Token} {ts : List Token} {x : Plain.TypeExpr}
    (h : ReadsType source ts x) (hk : t.kind = .punct .star) :
    ReadsType source (t :: ts) (.pointer x) := by
  obtain ⟨n, type, -, hn, rfl, hread⟩ := h
  have hfrom : typeFrom t = .ok [pointerTypeFrom t, .partly "type_expr" [] [.hole none]] := by
    simp [typeFrom, hk]
  have hform : typeInside source [.assemble "pointer_type" .origin
      [(Node.leaf t).inField none, n.inField (some "pointee")]] = _ := typeInside_pointer rfl
  rw [hn] at hform
  exact readsType_of_form hfrom hread.lastPart.opened hform

theorem ReadsType.array {opening size closing : Token} {ts : List Token} {x : Plain.TypeExpr}
    {count : UInt64} (h : ReadsType source ts x) (ho : opening.kind = .punct .openBracket)
    (hs : size.StandsIn source) (hk : size.kind = .number)
    (hv : size.value = Numeral.decimal count.toNat) (hc : closing.kind = .punct .closeBracket) :
    ReadsType source (opening :: size :: closing :: ts) (.array count x) := by
  obtain ⟨n, type, -, hn, rfl, hread⟩ := h
  have hfrom : typeFrom opening =
      .ok [arrayTypeFrom opening, .partly "type_expr" [] [.hole none]] := by
    simp [typeFrom, ho]
  have hsize : numberOf source ((Node.leaf size).inField (some "size")).head = .ok count := by
    rw [numberOf_eq_ok_iff (hs.leaf _), hv, Numeral.read?_decimal]
  have hfills : Fills "array_type" [.choice .size] NoDot (size :: closing :: ts) _ :=
    .choice (by rw [hk]; rfl) (by rw [hk]) rfl (.token hk (.token hc hread.lastPart))
  have hform : typeInside source [.assemble "array_type" .origin
      [(Node.leaf opening).inField none, (Node.leaf size).inField (some "size"),
        (Node.leaf closing).inField none, n.inField (some "element")]] = _ := typeInside_array rfl
  rw [hsize, hn] at hform
  exact readsType_of_form hfrom hfills.opened hform

theorem ReadsType.slice {opening closing : Token} {ts : List Token} {x : Plain.TypeExpr}
    (h : ReadsType source ts x) (ho : opening.kind = .punct .openBracket)
    (hc : closing.kind = .punct .closeBracket) :
    ReadsType source (opening :: closing :: ts) (.slice x) := by
  obtain ⟨n, type, -, hn, rfl, hread⟩ := h
  have hfrom : typeFrom opening =
      .ok [arrayTypeFrom opening, .partly "type_expr" [] [.hole none]] := by
    simp [typeFrom, ho]
  -- The closing bracket makes the node under way a slice type.
  have hslice : Completes [opened "slice_type" opening none
      [.mark .closeBracket, .node .typeExpr (some "element")]] NoDot (closing :: ts) _ :=
    (Fills.token hc hread.lastPart).opened
  have hframe : Completes [arrayTypeFrom opening] NoDot (closing :: ts)
      (.assemble "slice_type" .origin [(Node.leaf opening).inField none,
        (Node.leaf closing).inField none, n.inField (some "element")]) := by
    intro base
    obtain ⟨stack, htakes, hsettles⟩ := hslice base
    refine ⟨stack, htakes.of_feed ?_, hsettles⟩
    simp [feed, arrayTypeFrom, opened, Frame.before, settle, hc, Choice.rename?, Choice.expand,
      Part.mark]
  have hform : typeInside source [.assemble "slice_type" .origin
      [(Node.leaf opening).inField none, (Node.leaf closing).inField none,
        n.inField (some "element")]] = _ := typeInside_slice rfl
  rw [hn] at hform
  exact readsType_of_form hfrom hframe hform

theorem typesOf_append {ns ms : List Node} {types more : List TypeExpr}
    (h : typesOf source ns = .ok types) (h' : typesOf source ms = .ok more) :
    typesOf source (ns ++ ms) = .ok (types ++ more) := by
  induction ns generalizing types with
  | nil =>
    cases h
    exact h'
  | cons n ns ih =>
    rw [List.cons_append, typesOf]
    rw [typesOf] at h
    by_cases hn : n.named = true
    · rw [if_pos hn] at h ⊢
      cases hfirst : typeOf source n with
      | error d => simp [hfirst, bind, Except.bind] at h
      | ok type =>
        cases hrest : typesOf source ns with
        | error d => simp [hfirst, hrest, bind, Except.bind] at h
        | ok rest =>
          rw [hfirst, hrest] at h
          cases h
          rw [ih hrest]
          rfl
    · rw [if_neg hn] at h ⊢
      exact ih h

/-- Tokens that are read as types with commas between them, or no tokens at all. -/
def ReadsTypes (source : ByteArray) (ts : List Token) (xs : List Plain.TypeExpr) : Prop :=
  ts = [] ∧ xs = [] ∨ ∃ t rest frames ns types, ts = t :: rest ∧ typeFrom t = .ok frames ∧
    ReadsItems .typeExpr NoDot ts ns ∧ typesOf source ns = .ok types ∧ TypeExpr.plains types = xs

theorem ReadsType.last {ts : List Token} {x : Plain.TypeExpr} (h : ReadsType source ts x) :
    ReadsTypes source ts [x] := by
  obtain ⟨n, type, hnamed, hn, rfl, hread⟩ := h
  have hitems := ReadsItems.last hread
  obtain ⟨t, rest, frames, rfl, hbegin, -⟩ := hread
  refine Or.inr ⟨t, rest, frames, _, [type], rfl, hbegin, hitems, ?_, rfl⟩
  rw [typesOf, if_pos (by simpa using hnamed), typeOf_inField, hn]
  rfl

theorem ReadsType.more {ts us : List Token} {comma : Token} {x : Plain.TypeExpr}
    {xs : List Plain.TypeExpr} (h : ReadsType source ts x) (hc : comma.kind = .punct .comma)
    (hs : ReadsTypes source us xs) (hne : xs ≠ []) :
    ReadsTypes source (ts ++ comma :: us) (x :: xs) := by
  obtain ⟨n, type, hnamed, hn, rfl, hread⟩ := h
  rcases hs with ⟨-, hnil⟩ | ⟨-, -, -, ns, types, -, -, hitems, htypes, rfl⟩
  · exact absurd hnil hne
  have hall := ReadsItems.more hread hc hitems
  obtain ⟨t, rest, frames, rfl, hbegin, -⟩ := hread
  refine Or.inr ⟨t, _, frames, _, type :: types, rfl, hbegin, hall, ?_, rfl⟩
  rw [typesOf, if_pos (by simpa using hnamed), typeOf_inField, hn, typesOf,
    if_neg (by simp [hc, Kind.isNamed]), htypes]
  rfl

/-- The types between the parentheses of a function type. -/
theorem ReadsTypes.typeList {opening closing : Token} {ts : List Token}
    {xs : List Plain.TypeExpr} (h : ReadsTypes source ts xs)
    (ho : opening.kind = .punct .openParen) (hc : closing.kind = .punct .closeParen) :
    ∃ n types, typesOf source n.children = .ok types ∧ TypeExpr.plains types = xs ∧
      Reads .typeList (fun _ => True) (opening :: (ts ++ [closing])) n := by
  have hbegin : Production.typeList.begin opening = .ok
      [opened "type_list" opening none [.choice .types, .mark .closeParen]] := by
    simp [Production.begin, requiring, ho]
  have hopen : ((Node.leaf opening).inField none).named = false := by simp [ho, Kind.isNamed]
  have hclose : ((Node.leaf closing).inField none).named = false := by simp [hc, Kind.isNamed]
  have hlast : typesOf source [(Node.leaf closing).inField none] = .ok [] := by
    rw [typesOf, hclose]
    rfl
  rcases h with ⟨rfl, rfl⟩ | ⟨t, rest, frames, ns, types, rfl, hfirst, hitems, htypes, hplain⟩
  · have hfills : Fills "type_list" [.choice .types, .mark .closeParen] (fun _ => True)
        [closing] _ := .choice rfl (by rw [hc]) rfl (.token hc .nil)
    refine ⟨_, [], ?_, rfl, hfills.opened.reads hbegin⟩
    rw [Node.children_assemble, typesOf, hopen]
    exact hlast
  · have hexpand : Choice.types.expand t.kind = [.node .typeExpr none, .choice .moreTypes] := by
      unfold Choice.expand
      split <;> simp_all [typeFrom]
    have hdot : ∀ u : Token, u.kind = .punct .comma ∨ u.kind = .punct .closeParen → NoDot u := by
      rintro u (hu | hu) <;> simp [NoDot, hu]
    have hfills : Fills "type_list" [.choice .types, .mark .closeParen] (fun _ => True)
        (t :: rest ++ [closing]) _ :=
      .choice rfl hexpand rfl (fills_items ⟨fun _ => rfl, rfl, rfl⟩ (fun u hu => hdot u (Or.inl hu))
        (fun u hu => hdot u (Or.inr hu)) hitems hc)
    refine ⟨_, types, ?_, hplain, hfills.opened.reads hbegin⟩
    rw [Node.children_assemble, typesOf, hopen]
    have hall := typesOf_append htypes hlast
    rw [List.append_nil] at hall
    exact hall

theorem ReadsType.func {keyword opening closing arrow : Token} {ts us : List Token}
    {x : Plain.TypeExpr} {xs : List Plain.TypeExpr} (hreturns : ReadsType source us x)
    (hparams : ReadsTypes source ts xs) (hk : keyword.kind = .keyword .fnKw)
    (ho : opening.kind = .punct .openParen) (hc : closing.kind = .punct .closeParen)
    (ha : arrow.kind = .punct .arrow) :
    ReadsType source (keyword :: (opening :: (ts ++ [closing]) ++ arrow :: us))
      (.func xs x) := by
  obtain ⟨params, types, htypes, rfl, hlist⟩ := hparams.typeList ho hc
  obtain ⟨n, type, -, hn, rfl, hread⟩ := hreturns
  have hfrom : typeFrom keyword =
      .ok [funcTypeFrom keyword, .partly "type_expr" [] [.hole none]] := by
    simp [typeFrom, hk]
  have hfills : Fills "func_type" [.node .typeList (some "params"), .mark .arrow,
      .node .typeExpr (some "returns")] NoDot (opening :: (ts ++ [closing]) ++ arrow :: us) _ :=
    .node hlist trivial (.token ha hread.lastPart)
  have hform : typeInside source [.assemble "func_type" .origin
      [(Node.leaf keyword).inField none, params.inField (some "params"),
        (Node.leaf arrow).inField none, n.inField (some "returns")]] = _ := typeInside_func rfl
  rw [htypes, hn] at hform
  exact readsType_of_form hfrom hfills.opened hform

mutual

/-- **The tokens of a plain type are read as that type.** -/
theorem reads_type : ∀ x : Plain.TypeExpr, x.Proper → ∀ ts : List Token,
    ts.map Token.word = x.words → (∀ t ∈ ts, t.StandsIn source) → ReadsType source ts x
  | .name path, h, ts, hts, hstand => readsType_name h.1 hts hstand
  | .pointer pointee, h, ts, hts, hstand => by
    obtain ⟨t, rest, rfl, ht, hrest⟩ := List.map_eq_cons_iff.mp hts
    have hpointee := reads_type pointee h rest hrest fun u hu => hstand u (by simp [hu])
    exact hpointee.pointer (congrArg Prod.fst ht)
  | .array count element, h, ts, hts, hstand => by
    obtain ⟨opening, rest, rfl, ho, hrest⟩ := List.map_eq_cons_iff.mp hts
    obtain ⟨size, rest, rfl, hs, hrest⟩ := List.map_eq_cons_iff.mp hrest
    obtain ⟨closing, rest, rfl, hc, hrest⟩ := List.map_eq_cons_iff.mp hrest
    obtain ⟨hk, hv⟩ := Prod.mk.inj hs
    have helement := reads_type element h rest hrest fun u hu => hstand u (by simp [hu])
    exact helement.array (congrArg Prod.fst ho) (hstand size (by simp)) hk hv (congrArg Prod.fst hc)
  | .slice element, h, ts, hts, hstand => by
    obtain ⟨opening, rest, rfl, ho, hrest⟩ := List.map_eq_cons_iff.mp hts
    obtain ⟨closing, rest, rfl, hc, hrest⟩ := List.map_eq_cons_iff.mp hrest
    have helement := reads_type element h rest hrest fun u hu => hstand u (by simp [hu])
    exact helement.slice (congrArg Prod.fst ho) (congrArg Prod.fst hc)
  | .func params returns, h, ts, hts, hstand => by
    obtain ⟨keyword, rest, rfl, hk, hrest⟩ := List.map_eq_cons_iff.mp hts
    obtain ⟨list, rest, rfl, hlist, hrest⟩ := List.map_eq_append_iff.mp hrest
    obtain ⟨arrow, us, rfl, ha, hus⟩ := List.map_eq_cons_iff.mp hrest
    obtain ⟨opening, inner, closing, rfl, ho, hc, hinner⟩ := split_grouped hlist
    have hparams := reads_types params h.1 inner hinner fun u hu => hstand u (by simp [hu])
    have hreturns := reads_type returns h.2 us hus fun u hu => hstand u (by simp [hu])
    exact hreturns.func hparams (congrArg Prod.fst hk) ho hc (congrArg Prod.fst ha)

/-- The types of a list are read one by one. -/
theorem reads_types : ∀ xs : List Plain.TypeExpr, Plain.TypeExpr.AllProper xs →
    ∀ ts : List Token, ts.map Token.word = Plain.commaWords (Plain.TypeExpr.itemWords xs) →
    (∀ t ∈ ts, t.StandsIn source) → ReadsTypes source ts xs
  | [], _, ts, hts, _ => Or.inl ⟨List.map_eq_nil_iff.mp hts, rfl⟩
  | [x], h, ts, hts, hstand => (reads_type x h.1 ts hts hstand).last
  | x :: y :: rest, h, ts, hts, hstand => by
    obtain ⟨us, behind, rfl, hus, hbehind⟩ := List.map_eq_append_iff.mp hts
    obtain ⟨comma, vs, rfl, hc, hvs⟩ := List.map_eq_cons_iff.mp hbehind
    have hx := reads_type x h.1 us hus fun u hu => hstand u (by simp [hu])
    have hrest := reads_types (y :: rest) h.2 vs hvs fun u hu => hstand u (by simp [hu])
    exact hx.more (congrArg Prod.fst hc) hrest (List.cons_ne_nil y rest)

end

end
end Grammar
end BlockC
