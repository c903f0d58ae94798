import Mathlib.Data.List.Forall2
import BlockC.Proofs.LocalInvariant
import BlockC.Proofs.Reading

/-! # Two runs side by side

What the parser does depends on the kinds of the tokens only: on two lists of tokens of the same
kinds it takes the same steps and builds trees of the same shape (`Takes.alike`, `feed_alike`).
Trees are compared by a relation (`Node.Alike`) that is given how places correspond and what is
known of the texts of two tokens.
-/
namespace BlockC

open List (Forall₂)

/-- Two heads that say the same but for their places, which `g` makes the same. -/
structure NodeHead.Alike (g : Position → Position) (h h' : NodeHead) : Prop where
  kind : h.kind = h'.kind
  field : h.field = h'.field
  named : h.named = h'.named
  missing : h.missing = h'.missing
  error : h.error = h'.error
  span : h.span.moved g = h'.span.moved g

theorem NodeHead.Alike.trans {g : Position → Position} {h h' h'' : NodeHead} (hab : h.Alike g h')
    (hbc : h'.Alike g h'') : h.Alike g h'' :=
  ⟨hab.kind.trans hbc.kind, hab.field.trans hbc.field, hab.named.trans hbc.named,
    hab.missing.trans hbc.missing, hab.error.trans hbc.error, hab.span.trans hbc.span⟩

section
variable (g : Position → Position) (E : Span → Span → Prop)

namespace Node

mutual

/-- Two trees of the same shape: the places are the same for `g`, and leaves are related by `E`. -/
def Alike : Node → Node → Prop
  | mk h cs, mk h' cs' =>
    h.Alike g h' ∧ AllAlike cs cs' ∧ (cs = [] → h.kind = "source_file" ∨ E h.span h'.span)

def AllAlike : List Node → List Node → Prop
  | [], [] => True
  | n :: ns, n' :: ns' => n.Alike n' ∧ AllAlike ns ns'
  | _, _ => False

end

end Node

/-- Two tokens of the same kind, with related places. -/
structure Token.Alike (t t' : Token) : Prop where
  kind : t.kind = t'.kind
  span : t.span.moved g = t'.span.moved g
  text : E t.span t'.span

variable {g E}

/-! ### Trees -/

namespace Node

theorem allAlike_iff {ns ns' : List Node} :
    AllAlike g E ns ns' ↔ Forall₂ (Alike g E) ns ns' := by
  induction ns generalizing ns' with
  | nil => cases ns' <;> simp [AllAlike]
  | cons n ns ih => cases ns' <;> simp [AllAlike, ih]

theorem alike_iff {n n' : Node} : n.Alike g E n' ↔
    n.head.Alike g n'.head ∧ Forall₂ (Alike g E) n.children n'.children ∧
      (n.children = [] → n.kind = "source_file" ∨ E n.span n'.span) := by
  obtain ⟨h, cs⟩ := n
  obtain ⟨h', cs'⟩ := n'
  simp [Alike, allAlike_iff, Node.kind, Node.span]

section
variable {n n' : Node} {cs cs' : List Node}

theorem Alike.kind (h : n.Alike g E n') : n.kind = n'.kind :=
  (alike_iff.mp h).1.kind

theorem Alike.named (h : n.Alike g E n') : n.named = n'.named :=
  (alike_iff.mp h).1.named

theorem Alike.field (h : n.Alike g E n') : n.field = n'.field :=
  (alike_iff.mp h).1.field

theorem Alike.span (h : n.Alike g E n') : n.span.moved g = n'.span.moved g :=
  (alike_iff.mp h).1.span

theorem Alike.start (h : n.Alike g E n') : g n.start = g n'.start :=
  congrArg Span.start h.span

theorem Alike.children (h : n.Alike g E n') : Forall₂ (Alike g E) n.children n'.children :=
  (alike_iff.mp h).2.1

theorem Alike.inField (h : n.Alike g E n') (field : Option String) :
    (n.inField field).Alike g E (n'.inField field) := by
  obtain ⟨hhead, hchildren, hleaf⟩ := alike_iff.mp h
  exact alike_iff.mpr ⟨⟨hhead.kind, rfl, hhead.named, hhead.missing, hhead.error, hhead.span⟩,
    hchildren, hleaf⟩

theorem alike_leaf {t t' : Token} (h : t.Alike g E t') : (leaf t).Alike g E (leaf t') := by
  have hkind := h.kind
  refine alike_iff.mpr ⟨⟨?_, rfl, ?_, rfl, ?_, h.span⟩, .nil, fun _ => Or.inr h.text⟩ <;>
    simp [leaf, hkind]

/-- The first of two lists of trees. -/
theorem alike_head? {pos pos' : Position} (h : Forall₂ (Alike g E) cs cs')
    (hpos : g pos = g pos') : g ((cs.head?.map (·.span.start)).getD pos) =
      g ((cs'.head?.map (·.span.start)).getD pos') := by
  cases h with
  | nil => exact hpos
  | cons hn _ => exact hn.start

theorem alike_getLast? {pos pos' : Position} (h : Forall₂ (Alike g E) cs cs')
    (hpos : g pos = g pos') : g ((cs.getLast?.map (·.span.stop)).getD pos) =
      g ((cs'.getLast?.map (·.span.stop)).getD pos') := by
  rw [List.getLast?_eq_head?_reverse, List.getLast?_eq_head?_reverse]
  have hreverse := List.forall₂_reverse_iff.mpr h
  generalize cs.reverse = ds, cs'.reverse = ds' at hreverse
  cases hreverse with
  | nil => exact hpos
  | cons hn _ => exact congrArg Span.stop hn.span

theorem alike_extent {pos pos' : Position} (h : Forall₂ (Alike g E) cs cs')
    (hpos : g pos = g pos') : (extent pos cs).moved g = (extent pos' cs').moved g := by
  simp only [extent, Span.moved, alike_head? h hpos, alike_getLast? h hpos]

theorem alike_assemble {pos pos' : Position} (kind : String) (h : Forall₂ (Alike g E) cs cs')
    (hpos : g pos = g pos') (hne : kind = "source_file" ∨ cs ≠ []) :
    (assemble kind pos cs).Alike g E (assemble kind pos' cs') := by
  refine alike_iff.mpr ⟨⟨rfl, rfl, rfl, rfl, rfl, alike_extent h hpos⟩, h, fun hnil => ?_⟩
  exact Or.inl (hne.resolve_right fun hcs => hcs hnil)

theorem alike_filter (h : Forall₂ (Alike g E) cs cs') :
    Forall₂ (Alike g E) (cs.filter (·.named)) (cs'.filter (·.named)) := by
  induction h with
  | nil => exact .nil
  | @cons n n' _ _ hn _ ih =>
    have hnamed := hn.named
    cases hn' : n'.named with
    | false => simpa [hnamed, hn'] using ih
    | true => simpa [hnamed, hn'] using ⟨hn, ih⟩

/-- The only named child of one is like that of the other. -/
theorem Alike.onlyNamedChild? (h : n.Alike g E n') :
    Option.Rel (Alike g E) n.onlyNamedChild? n'.onlyNamedChild? := by
  have hfilter : Forall₂ (Alike g E) n.namedChildren n'.namedChildren := alike_filter h.children
  unfold Node.onlyNamedChild?
  generalize n.namedChildren = ds, n'.namedChildren = ds' at hfilter
  cases hfilter with
  | nil => exact .none
  | cons hc hrest =>
    cases hrest with
    | nil => exact .some (hc.inField none)
    | cons _ _ => exact .none

end
end Node

namespace Grammar

open Node

theorem alike_wrapped {n n' : Node} (h : n.Alike g E n') :
    (wrapped n).Alike g E (wrapped n') :=
  alike_assemble "expr" (.cons (h.inField none) .nil) h.start (Or.inr (by simp))

/-! ### Frames -/

/-- The node that a frame builds will have a child, unless it is the whole file. -/
def Grounded (kind : String) (done : List Node) (todo : List Part) : Prop :=
  done ≠ [] ∨ (∃ field rest, todo = .hole field :: rest) ∨
    (kind = "source_file" ∧ .choice .size ∉ todo)

variable (g E) in
/-- Two frames at the same point, with trees of the same shape. -/
def Frame.Alike : Frame → Frame → Prop
  | .partly kind done todo, .partly kind' done' todo' =>
    kind = kind' ∧ todo = todo' ∧ Forall₂ (Node.Alike g E) done done' ∧ Grounded kind done todo
  | .operators left above, .operators left' above' => left.Alike g E left' ∧ above = above'
  | .operand above, .operand above' => above = above'
  | .complete n, .complete n' => n.Alike g E n'
  | _, _ => False

variable (g E) in
/-- Two stacks at the same point. -/
def Stack.Alike (s s' : Stack) : Prop :=
  Forall₂ (Frame.Alike g E) s s'

variable (g E) in
/-- Two productions begin in the same way.  The tokens matter only if one of them is taken. -/
def Began (t t' : Token) : Except Request (List Frame) → Except Request (List Frame) → Prop
  | .ok frames, .ok frames' => t.Alike g E t' → Forall₂ (Frame.Alike g E) frames frames'
  | .error r, .error r' => r = r'
  | _, _ => False

theorem Grounded.settle {kind : String} {done : List Node} {todo : List Part}
    (h : Grounded kind done todo) (k : Kind) :
    Grounded (settle kind k todo).1 done (settle kind k todo).2 := by
  rcases h with h | ⟨field, rest, rfl⟩ | ⟨hfile, hsize⟩
  · exact Or.inl h
  · exact Or.inr (Or.inl ⟨field, rest, rfl⟩)
  · cases todo with
    | nil => exact Or.inr (Or.inr ⟨hfile, hsize⟩)
    | cons part rest =>
      cases part with
      | token _ _ | node _ _ | hole _ => exact Or.inr (Or.inr ⟨hfile, hsize⟩)
      | choice c =>
        have hc : c ≠ .size := by
          rintro rfl
          simp at hsize
        have hexpand : .choice .size ∉ c.expand k := by
          refine fun hmem => absurd (c.expand_subset_options k hmem) ?_
          cases c <;> simp [Choice.options, Part.mark, Part.word]
        have hrename := Choice.rename?_eq_none hc k
        refine Or.inr (Or.inr ⟨by simp [Grammar.settle, hrename, hfile], ?_⟩)
        simp only [Grammar.settle, List.mem_append, not_or]
        exact ⟨hexpand, fun h => hsize (by simp [h])⟩

section
variable {t t' : Token}

theorem alike_opened (h : t.Alike g E t') (kind : String) (field : Option String)
    (todo : List Part) : (opened kind t field todo).Alike g E (opened kind t' field todo) :=
  ⟨rfl, rfl, .cons ((alike_leaf h).inField field) .nil, Or.inl (by simp)⟩

theorem alike_wrapper (kind : String) (field : Option String) :
    (Frame.partly kind [] [.hole field]).Alike g E (.partly kind [] [.hole field]) :=
  ⟨rfl, rfl, .nil, Or.inr (Or.inl ⟨_, _, rfl⟩)⟩

theorem exprFrom_alike (hk : t.kind = t'.kind) (above : Level) :
    Began g E t t' (exprFrom above t) (exprFrom above t') := by
  unfold exprFrom
  rw [← hk]
  split
  · intro h
    exact .cons ⟨alike_wrapped (alike_leaf h), rfl⟩ .nil
  split
  · exact fun h => .cons (alike_opened h _ _ _) (.cons rfl .nil)
  split
  · exact fun h => .cons (alike_opened h _ _ _) (.cons rfl .nil)
  split
  · exact fun h => .cons (alike_opened h _ _ _) (.cons rfl .nil)
  · rfl

theorem typeFrom_alike (hk : t.kind = t'.kind) :
    Began g E t t' (typeFrom t) (typeFrom t') := by
  unfold typeFrom
  rw [← hk]
  split
  case h_5 => rfl
  all_goals exact fun h => .cons (alike_opened h _ _ _) (.cons (alike_wrapper _ _) .nil)

theorem stmtFrame?_alike (hk : t.kind = t'.kind) :
    stmtFrame? t = none ∧ stmtFrame? t' = none ∨
      ∃ f f', stmtFrame? t = some f ∧ stmtFrame? t' = some f' ∧
        (t.Alike g E t' → f.Alike g E f') := by
  unfold stmtFrame?
  rw [← hk]
  split
  case h_10 => exact Or.inl ⟨rfl, rfl⟩
  all_goals exact Or.inr ⟨_, _, rfl, rfl, fun h => alike_opened h _ _ _⟩

theorem stmtFrom_alike (hk : t.kind = t'.kind) :
    Began g E t t' (stmtFrom t) (stmtFrom t') := by
  unfold stmtFrom
  rcases stmtFrame?_alike hk with ⟨h, h'⟩ | ⟨f, f', h, h', hf⟩
  · have hexpr := exprFrom_alike (g := g) (E := E) hk .lowest
    simp only [h, h']
    cases he : exprFrom .lowest t <;> cases he' : exprFrom .lowest t' <;> rw [he, he'] at hexpr
    · exact hexpr
    · exact hexpr.elim
    · exact hexpr.elim
    · exact fun ht => List.rel_append (hexpr ht) (.cons (alike_wrapper _ _) .nil)
  · simp only [h, h']
    exact fun ht => .cons (hf ht) (.cons (alike_wrapper _ _) .nil)

theorem requiring_alike (hk : t.kind = t'.kind) (k : Kind) {frames frames' : List Frame}
    (h : t.Alike g E t' → Forall₂ (Frame.Alike g E) frames frames') :
    Began g E t t' (requiring k t frames) (requiring k t' frames') := by
  unfold requiring
  rw [← hk]
  split
  · exact h
  · rfl

/-- A production begins in the same way before tokens of the same kind. -/
theorem begin_alike (hk : t.kind = t'.kind) (p : Production) :
    Began g E t t' (p.begin t) (p.begin t') := by
  cases p with
  | expr above => exact exprFrom_alike hk above
  | typeExpr => exact typeFrom_alike hk
  | stmt => exact stmtFrom_alike hk
  | literal =>
    simp only [Production.begin]
    rw [← hk]
    split
    · exact fun h => .cons (alike_leaf h) .nil
    · rfl
  | name | typeList | typedIdent | params | codeblock =>
    exact requiring_alike hk _ fun h => .cons (alike_opened h _ _ _) .nil
  | externalVariable =>
    exact requiring_alike hk _ fun h =>
      .cons (alike_opened h _ _ _) (.cons (alike_wrapper _ _) .nil)
  | signed | parenthesized | pointerType | arrayType | funcType | mod | declare | variadic
  | external | externalFunction | func | typeAlias | whileLoop | ifElse | returned =>
    exact fun h => .cons (alike_opened h _ _ _) .nil

/-- An operator goes on in the same way behind operands of the same shape. -/
theorem operation?_alike (t t' : Token) {left left' : Node} (hleft : left.Alike g E left')
    (level : Level) (role : OperatorRole) :
    operation? left t level role = none ∧ operation? left' t' level role = none ∨
      ∃ frames frames', operation? left t level role = some frames ∧
        operation? left' t' level role = some frames' ∧
        (t.Alike g E t' → Forall₂ (Frame.Alike g E) frames frames') := by
  cases role with
  | binary | assignment =>
    refine Or.inr ⟨_, _, rfl, rfl, fun h => .cons ⟨rfl, rfl, ?_, Or.inl (by simp)⟩ .nil⟩
    exact .cons ((alike_leaf h).inField _) (.cons (hleft.inField _) .nil)
  | conditional =>
    refine Or.inr ⟨_, _, rfl, rfl, fun h => .cons ⟨rfl, rfl, ?_, Or.inl (by simp)⟩ .nil⟩
    exact .cons (alike_leaf h) (.cons (hleft.inField _) .nil)
  | call =>
    have hchild := hleft.onlyNamedChild?
    simp only [operation?]
    generalize left.onlyNamedChild? = c, left'.onlyNamedChild? = c' at hchild
    cases hchild with
    | none => exact Or.inl ⟨rfl, rfl⟩
    | some hc =>
      simp only [← hc.kind]
      split
      · refine Or.inr ⟨_, _, rfl, rfl, fun h => .cons (alike_opened h _ _ _) (.cons ?_ .nil)⟩
        exact ⟨rfl, rfl, .cons (hc.inField _) .nil, Or.inl (by simp)⟩
      · exact Or.inl ⟨rfl, rfl⟩

variable (g E) in
/-- Two frames do the same before a token. -/
def Move.Alike (t t' : Token) : Move → Move → Prop
  | .shift frames, .shift frames' => t.Alike g E t' → Forall₂ (Frame.Alike g E) frames frames'
  | .complete n, .complete n' => n.Alike g E n'
  | .stuck r, .stuck r' => r = r'
  | _, _ => False

theorem before_alike (hk : t.kind = t'.kind) {f f' : Frame} (hf : f.Alike g E f') :
    Move.Alike g E t t' (f.before t) (f'.before t') := by
  cases f with
  | complete n =>
    cases f' <;> first | exact hf.elim | skip
    exact hf
  | operand above =>
    cases f' <;> first | exact hf.elim | skip
    rfl
  | operators left above =>
    cases f' <;> first | exact hf.elim | skip
    obtain ⟨hleft, rfl⟩ := hf
    simp only [Frame.before, ← hk]
    split
    · rename_i level role hop
      split
      · rcases operation?_alike t t' hleft level role with
          ⟨h, h'⟩ | ⟨frames, frames', h, h', hframes⟩
        · rw [h, h']
          rfl
        · rw [h, h']
          exact fun ht => List.rel_append (hframes ht) (.cons rfl .nil)
      · exact hleft
    · exact hleft
  | partly kind done todo =>
    cases f' <;> first | exact hf.elim | skip
    obtain ⟨rfl, rfl, hdone, hne⟩ := hf
    simp only [Frame.before, ← hk]
    have hne' := hne.settle t.kind
    generalize settle kind t.kind todo = opened at hne'
    obtain ⟨kind', todo'⟩ := opened
    cases todo' with
    | nil =>
      refine alike_assemble kind' (List.forall₂_reverse_iff.mpr hdone) rfl ?_
      rcases hne' with h | ⟨field, rest, h⟩ | ⟨h, -⟩
      · exact Or.inr (by simpa using h)
      · cases h
      · exact Or.inl h
    | cons part rest =>
      cases part with
      | token k field =>
        simp only
        split
        · intro ht
          exact .cons ⟨rfl, rfl, .cons ((alike_leaf ht).inField _) hdone,
            Or.inl (by simp)⟩ .nil
        · rfl
      | node p field =>
        have hbegin := begin_alike (g := g) (E := E) hk p
        simp only
        cases hb : p.begin t <;> cases hb' : p.begin t' <;> rw [hb, hb'] at hbegin
        · exact hbegin
        · exact hbegin.elim
        · exact hbegin.elim
        · intro ht
          exact List.rel_append (hbegin ht) (.cons ⟨rfl, rfl, hdone, Or.inr (Or.inl ⟨_, _, rfl⟩)⟩
            .nil)
      | hole field => rfl
      | choice c => rfl

theorem fill_alike {n n' : Node} {f f' : Frame} (hn : n.Alike g E n') (hf : f.Alike g E f') :
    (f.fill n).Alike g E (f'.fill n') := by
  cases f with
  | complete _ | operators _ _ =>
    cases f' <;> first | exact hf.elim | skip
    exact hf
  | operand above =>
    cases f' <;> first | exact hf.elim | skip
    exact ⟨alike_wrapped hn, hf⟩
  | partly kind done todo =>
    cases f' <;> first | exact hf.elim | skip
    obtain ⟨rfl, rfl, hdone, hne⟩ := hf
    cases todo with
    | nil => exact ⟨rfl, rfl, hdone, hne⟩
    | cons part rest =>
      cases part with
      | token _ _ | node _ _ | choice _ => exact ⟨rfl, rfl, hdone, hne⟩
      | hole field => exact ⟨rfl, rfl, .cons (hn.inField field) hdone, Or.inl (by simp)⟩

/-! ### Stacks -/

variable (g E) in
/-- Two stacks do the same before a token. -/
def Step.Alike (t t' : Token) : Step → Step → Prop
  | .shift s, .shift s' => t.Alike g E t' → s.Alike g E s'
  | .done n, .done n' => n.Alike g E n'
  | .stuck r s, .stuck r' s' => r = r' ∧ s.Alike g E s'
  | _, _ => False

theorem resume_alike (hk : t.kind = t'.kind) {n n' : Node} {s s' : Stack}
    (hn : n.Alike g E n') (hs : s.Alike g E s') :
    Step.Alike g E t t' (resume t n s) (resume t' n' s') := by
  induction hs generalizing n n' with
  | nil => exact hn
  | @cons f f' rest rest' hf hrest ih =>
    have hfill := fill_alike hn hf
    have hbefore := before_alike hk hfill
    unfold resume
    cases hb : (f.fill n).before t <;> cases hb' : (f'.fill n').before t' <;>
      rw [hb, hb'] at hbefore <;> first | exact hbefore.elim | skip
    · exact fun ht => List.rel_append (hbefore ht) hrest
    · exact ih hbefore
    · exact ⟨hbefore, .cons hfill hrest⟩

/-- **Stacks of the same shape do the same before tokens of the same kind.** -/
theorem feed_alike (hk : t.kind = t'.kind) {s s' : Stack} (hs : s.Alike g E s') :
    Step.Alike g E t t' (feed t s) (feed t' s') := by
  cases hs with
  | nil => exact ⟨rfl, .nil⟩
  | @cons f f' rest rest' hf hrest =>
    have hbefore := before_alike hk hf
    simp only [feed]
    cases hb : f.before t <;> cases hb' : f'.before t' <;>
      rw [hb, hb'] at hbefore <;> first | exact hbefore.elim | skip
    · exact fun ht => List.rel_append (hbefore ht) hrest
    · exact resume_alike hk hbefore hrest
    · exact ⟨hbefore, .cons hf hrest⟩

end

/-- **Tokens of the same kinds lead to stacks of the same shape.** -/
theorem Takes.alike {ts ts' : List Token} {a a' b : Stack} (h : Takes ts a b)
    (hts : Forall₂ (Token.Alike g E) ts ts') (ha : Stack.Alike g E a a') :
    ∃ b', Takes ts' a' b' ∧ Stack.Alike g E b b' := by
  induction hts generalizing a a' with
  | nil =>
    obtain rfl : a = b := h
    exact ⟨a', rfl, ha⟩
  | @cons t t' ts ts' ht hts ih =>
    obtain ⟨next, hfeed, hrest⟩ := h
    have halike := feed_alike ht.kind ha
    rw [hfeed] at halike
    cases hf' : feed t' a' <;> rw [hf'] at halike <;> first | exact halike.elim | skip
    obtain ⟨b', hb', hbb'⟩ := ih hrest (halike ht)
    exact ⟨b', ⟨_, hf', hb'⟩, hbb'⟩

/-! ### Runs -/

/-- All places are the same. -/
def nowhere (_ : Position) : Position :=
  .origin

/-- Tokens of the same kinds, with nothing said of their places. -/
theorem alike_of_kinds {ts ts' : List Token} (h : ts.map (·.kind) = ts'.map (·.kind)) :
    Forall₂ (Token.Alike nowhere fun _ _ => True) ts ts' := by
  induction ts generalizing ts' with
  | nil =>
    obtain rfl := List.map_eq_nil_iff.mp h.symm
    exact .nil
  | cons t ts ih =>
    cases ts' with
    | nil => cases h
    | cons t' ts' =>
      obtain ⟨hk, hrest⟩ := List.cons.inj h
      exact .cons ⟨hk, rfl, trivial⟩ (ih hrest)

theorem alike_sourceFile :
    Stack.Alike g E [sourceFile] [sourceFile] :=
  .cons ⟨rfl, rfl, .nil, Or.inr (Or.inr ⟨rfl, by simp⟩)⟩ .nil

/-- Reading takes tokens as long as it can; what it leads to is decided where it cannot. -/
theorem drive_run (s : Stream) (stack : Stack) (ts : List Token) :
    ∃ taken rest last place, ts = taken ++ rest ∧ Takes taken stack last ∧
      (∀ t, rest.head? = some t → ∀ next, feed t last ≠ .shift next) ∧
      place.index = s.index + taken.length ∧ place.last = taken.getLast?.or s.last ∧
      drive s stack ts = drive place last rest := by
  induction ts generalizing s stack with
  | nil => exact ⟨[], [], stack, s, rfl, rfl, by simp, rfl, rfl, rfl⟩
  | cons t ts ih =>
    by_cases hshift : ∃ next, feed t stack = .shift next
    · obtain ⟨next, hnext⟩ := hshift
      obtain ⟨taken, rest, last, place, rfl, htakes, hstop, hindex, hlast, hdrive⟩ :=
        ih { s with index := s.index + 1, last := some t } next
      refine ⟨t :: taken, rest, last, place, rfl, ⟨next, hnext, htakes⟩, hstop, ?_, ?_, ?_⟩
      · have hplace : place.index = s.index + 1 + taken.length := hindex
        rw [hplace, List.length_cons, Nat.add_assoc, Nat.add_comm 1]
      · rw [hlast, List.getLast?_cons]
        cases taken.getLast? <;> rfl
      · rw [drive, hnext]
        exact hdrive
    · refine ⟨[], t :: ts, stack, s, rfl, rfl, ?_, rfl, rfl, rfl⟩
      intro u hu next hnext
      obtain rfl := Option.some.inj hu
      exact hshift ⟨next, hnext⟩

/-- Two faults of the same kind, at the same token. -/
def Fault.Alike : Fault → Fault → Prop
  | .unexpected index, .unexpected index' => index = index'
  | .missing kind named _, .missing kind' named' _ => kind = kind' ∧ named = named'
  | _, _ => False

theorem fault_alike {s s' : Stream} (hi : s.index = s'.index)
    (ha : s.ahead = [] ↔ s'.ahead = []) (r : Request) : (s.fault r).Alike (s'.fault r) := by
  unfold Stream.fault
  split
  · rename_i hs
    rw [ha.mp hs]
    exact ⟨rfl, rfl⟩
  · rename_i hs
    cases hs' : s'.ahead with
    | nil =>
      rw [ha.mpr hs'] at hs
      cases hs
    | cons t rest => exact hi

/-- **Tokens of the same kinds lead to trees of the same shape, or to the same fault.** What was
under way at a fault has the same shape too, if the ends of the texts are related. -/
theorem drive_alike {ts ts' : List Token} (hts : Forall₂ (Token.Alike g E) ts ts') {a a' : Stack}
    (ha : Stack.Alike g E a a') {s s' : Stream} (hi : s.index = s'.index) :
    (∃ n n', (drive s a ts).result = .ok n ∧ (drive s' a' ts').result = .ok n' ∧
      n.Alike g E n') ∨
    (∃ f f', (drive s a ts).result = .error f ∧ (drive s' a' ts').result = .error f' ∧
      f.Alike f' ∧ (Token.Alike g E (.eof s.stop) (.eof s'.stop) →
        Stack.Alike g E (drive s a ts).pending (drive s' a' ts').pending)) := by
  induction hts generalizing a a' s s' with
  | nil =>
    have hk : (Token.eof s.stop).kind = (Token.eof s'.stop).kind := rfl
    have hstep := feed_alike hk ha
    have hfault : ∀ r, ({ s with ahead := [] } : Stream).fault r |>.Alike
        (({ s' with ahead := [] } : Stream).fault r) := fault_alike hi (by simp)
    unfold drive
    cases hf : feed (.eof s.stop) a <;> cases hf' : feed (.eof s'.stop) a' <;>
      rw [hf, hf'] at hstep <;> first | exact hstep.elim | skip
    · exact Or.inr ⟨_, _, rfl, rfl, hfault _, hstep⟩
    · exact Or.inl ⟨_, _, rfl, rfl, hstep⟩
    · obtain ⟨rfl, hstack⟩ := hstep
      exact Or.inr ⟨_, _, rfl, rfl, hfault _, fun _ => hstack⟩
  | @cons t t' ts ts' ht hts ih =>
    have hstep := feed_alike ht.kind ha
    have hfault : ∀ r, ({ s with ahead := t :: ts } : Stream).fault r |>.Alike
        (({ s' with ahead := t' :: ts' } : Stream).fault r) := fault_alike hi (by simp)
    unfold drive
    cases hf : feed t a <;> cases hf' : feed t' a' <;>
      rw [hf, hf'] at hstep <;> first | exact hstep.elim | skip
    · have hi' : s.index + 1 = s'.index + 1 := by rw [hi]
      exact ih (hstep ht) hi'
    · exact Or.inl ⟨_, _, rfl, rfl, hstep⟩
    · obtain ⟨rfl, hstack⟩ := hstep
      exact Or.inr ⟨_, _, rfl, rfl, hfault _, fun _ => hstack⟩

end Grammar
end
end BlockC
