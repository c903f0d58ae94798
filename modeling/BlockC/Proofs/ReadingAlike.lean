import BlockC.Proofs.Lockstep
import BlockC.Proofs.Relocation

/-! # Reading trees of the same shape

Two trees of the same shape, over texts that agree wherever a text is looked at, are read as the
same program but for its places (`stmtsOf_twin`).
-/
namespace BlockC

open List (Forall₂)

/-- What stands at two places of two sources is the same text. -/
def SameText (source source' : ByteArray) (span span' : Span) : Prop :=
  ∃ text, (∀ head : NodeHead, head.span = span → Surface.textOf source head = .ok text) ∧
    ∀ head : NodeHead, head.span = span' → Surface.textOf source' head = .ok text

section
variable (g : Position → Position) (source source' : ByteArray)

/-- Two trees of the same shape that can be read, with the same texts. -/
def Node.Twin (n n' : Node) : Prop :=
  n.Alike g (SameText source source') n' ∧ n.Legible

def Node.AllTwin (ns ns' : List Node) : Prop :=
  Node.AllAlike g (SameText source source') ns ns' ∧ Node.AllLegible ns

/-- Two readings that give related results, or report the same but for the place. -/
def ReadAlike {α : Type} (R : α → α → Prop) : Except Diagnostic α → Except Diagnostic α → Prop
  | .ok a, .ok a' => R a a'
  | .error d, .error d' => d.moved g = d'.moved g
  | _, _ => False

end

variable {g : Position → Position} {source source' : ByteArray}

theorem Node.twin_mk {head head' : NodeHead} {cs cs' : List Node}
    (h : Node.Twin g source source' (.mk head cs) (.mk head' cs')) :
    head.Alike g head' ∧ Node.AllTwin g source source' cs cs' ∧
      ∀ c ∈ cs, Grammar.Fitting head.kind c :=
  ⟨h.1.1, ⟨h.1.2.1, h.2.2.2⟩, h.2.2.1⟩

theorem Node.allTwin_cons {n n' : Node} {ns ns' : List Node}
    (h : Node.AllTwin g source source' (n :: ns) (n' :: ns')) :
    n.Twin g source source' n' ∧ Node.AllTwin g source source' ns ns' :=
  ⟨⟨h.1.1, h.2.1⟩, h.1.2, h.2.2⟩

theorem Node.AllTwin.cases {ns ns' : List Node} (h : Node.AllTwin g source source' ns ns') :
    (ns = [] ∧ ns' = []) ∨ ∃ n rest n' rest', ns = n :: rest ∧ ns' = n' :: rest' ∧
      n.Twin g source source' n' ∧ Node.AllTwin g source source' rest rest' := by
  cases ns with
  | nil =>
    cases ns' with
    | nil => exact Or.inl ⟨rfl, rfl⟩
    | cons n' rest' => exact h.1.elim
  | cons n rest =>
    cases ns' with
    | nil => exact h.1.elim
    | cons n' rest' => exact Or.inr ⟨n, rest, n', rest', rfl, rfl, Node.allTwin_cons h⟩

theorem Node.Twin.children {n n' : Node} (h : n.Twin g source source' n') :
    Node.AllTwin g source source' n.children n'.children := by
  obtain ⟨head, cs⟩ := n
  obtain ⟨head', cs'⟩ := n'
  exact (Node.twin_mk h).2.1

theorem Node.Twin.head {n n' : Node} (h : n.Twin g source source' n') : n.head.Alike g n'.head :=
  (Node.alike_iff.mp h.1).1

theorem Node.Twin.namedChildren {n n' : Node} (h : n.Twin g source source' n') :
    Node.AllTwin g source source' n.namedChildren n'.namedChildren := by
  refine ⟨Node.allAlike_iff.mpr (Node.alike_filter h.1.children), Node.allLegible_iff.mpr ?_⟩
  intro c hc
  exact Node.allLegible_iff.mp h.children.2 c (List.mem_filter.mp hc).1

namespace ReadAlike

variable {α β : Type} {R : α → α → Prop} {S : β → β → Prop}

/-- Both readings give a result, or both report. -/
@[elab_as_elim]
theorem cases {motive : Except Diagnostic α → Except Diagnostic α → Prop}
    {r r' : Except Diagnostic α} (h : ReadAlike g R r r')
    (ok : ∀ a a', R a a' → motive (.ok a) (.ok a'))
    (error : ∀ d d', d.moved g = d'.moved g → motive (.error d) (.error d')) : motive r r' := by
  cases r <;> cases r' <;> first | exact h.elim | skip
  · exact error _ _ h
  · exact ok _ _ h

theorem bind {r r' : Except Diagnostic α} {k k' : α → Except Diagnostic β}
    (h : ReadAlike g R r r') (hk : ∀ a a', R a a' → ReadAlike g S (k a) (k' a')) :
    ReadAlike g S (r >>= k) (r' >>= k') := by
  refine h.cases (fun a a' ha => hk a a' ha) fun d d' hd => hd

theorem moved {f : α → β} {r r' : Except Diagnostic α}
    (h : ReadAlike g (fun a a' => f a = f a') r r') : Except.moved g f r = Except.moved g f r' :=
  h.cases (fun _ _ ha => congrArg Except.ok ha) fun _ _ hd => congrArg Except.error hd

end ReadAlike

namespace Surface

/-! ### Texts and roles -/

theorem malformed_alike {head head' : NodeHead} (h : head.Alike g head') (message : String) :
    (malformed head message).moved g = (malformed head' message).moved g := by
  have hstart : g head.span.start = g head'.span.start := congrArg Span.start h.span
  simp [malformed, Diagnostic.moved, h.kind, hstart]

theorem tag_ne_file (k : Kind) : k.tag ≠ "source_file" := by
  cases k with
  | eof | unknown | number | string | identifier => decide
  | punct p => cases p <;> decide
  | keyword k => cases k <;> decide

/-- The texts of two tokens. -/
theorem textOf_twin {n n' : Node} (h : n.Twin g source source' n') (ht : n.IsToken) :
    ∃ text, textOf source n.head = .ok text ∧ textOf source' n'.head = .ok text := by
  obtain ⟨t, field, rfl⟩ := ht
  rcases (Node.alike_iff.mp h.1).2.2 rfl with hfile | ⟨text, hs, hs'⟩
  · exact absurd hfile (tag_ne_file t.kind)
  · exact ⟨text, hs _ rfl, hs' _ rfl⟩

theorem pathOf_twin {cs cs' : List Node} (h : Node.AllTwin g source source' cs cs')
    (ht : ∀ c ∈ cs, c.IsToken) :
    ∃ path, pathOf source cs = .ok path ∧ pathOf source' cs' = .ok path := by
  induction cs generalizing cs' with
  | nil =>
    rcases h.cases with ⟨-, rfl⟩ | ⟨_, _, _, _, hnil, _⟩
    · exact ⟨[], rfl, rfl⟩
    · cases hnil
  | cons c cs ih =>
    rcases h.cases with ⟨hnil, -⟩ | ⟨_, _, c', cs', hcons, rfl, hc, hcs⟩
    · cases hnil
    cases hcons
    obtain ⟨text, htext, htext'⟩ := textOf_twin hc (ht c (by simp))
    obtain ⟨path, hpath, hpath'⟩ := ih hcs fun d hd => ht d (by simp [hd])
    have hnamed := hc.1.named
    cases hn : c'.named with
    | false =>
      rw [hn] at hnamed
      exact ⟨path, by simp [pathOf, hnamed, hpath], by simp [pathOf, hn, hpath']⟩
    | true =>
      rw [hn] at hnamed
      refine ⟨text :: path, ?_, ?_⟩
      · simp [pathOf, hnamed, htext, hpath, bind, Except.bind, pure, Except.pure]
      · simp [pathOf, hn, htext', hpath', bind, Except.bind, pure, Except.pure]

/-- The segments of two names. -/
theorem pathOf_name {n n' : Node} (h : n.Twin g source source' n') (hk : n.kind = "ident_expr") :
    ∃ path, pathOf source n.children = .ok path ∧ pathOf source' n'.children = .ok path := by
  obtain ⟨head, cs⟩ := n
  obtain ⟨head', cs'⟩ := n'
  obtain ⟨-, hcs, hfit⟩ := Node.twin_mk h
  refine pathOf_twin hcs fun c hc => (hfit c hc).1 ?_
  simp [Grammar.isRead, show head.kind = "ident_expr" from hk]

theorem numberOf_twin {n n' : Node} (h : n.Twin g source source' n') (ht : n.IsToken) :
    ReadAlike g Eq (numberOf source n.head) (numberOf source' n'.head) := by
  obtain ⟨text, htext, htext'⟩ := textOf_twin h ht
  simp only [numberOf, htext, htext', bind, Except.bind]
  cases Numeral.read? text with
  | some value => rfl
  | none =>
    have hstart := h.1.start
    change Diagnostic.mk _ _ = Diagnostic.mk _ _
    rw [show g n.head.span.start = g n'.head.span.start from hstart]

theorem find?_twin {cs cs' : List Node} (h : Node.AllTwin g source source' cs cs')
    (field : String) :
    (cs.find? (·.field == some field) = none ∧ cs'.find? (·.field == some field) = none) ∨
      ∃ c c', cs.find? (·.field == some field) = some c ∧
        cs'.find? (·.field == some field) = some c' ∧ c.Twin g source source' c' ∧ c ∈ cs ∧
        c.field = some field := by
  induction cs generalizing cs' with
  | nil =>
    rcases h.cases with ⟨-, rfl⟩ | ⟨_, _, _, _, hnil, _⟩
    · exact Or.inl ⟨rfl, rfl⟩
    · cases hnil
  | cons c cs ih =>
    rcases h.cases with ⟨hnil, -⟩ | ⟨_, _, c', cs', hcons, rfl, hc, hcs⟩
    · cases hnil
    cases hcons
    have hfield := hc.1.field
    by_cases hf : c.field = some field
    · exact Or.inr ⟨c, c', by simp [hf], by simp [← hfield, hf], hc, by simp, hf⟩
    · rcases ih hcs with ⟨hn, hn'⟩ | ⟨d, d', hd, hd', htwin, hmem, hrole⟩
      · exact Or.inl ⟨by simp [hf, hn], by simp [← hfield, hf, hn']⟩
      · exact Or.inr ⟨d, d', by simp [hf, hd], by simp [← hfield, hf, hd'], htwin, by simp [hmem],
          hrole⟩

/-- What is known of the children that two trees have in a role. -/
def TwinsIn (g : Position → Position) (source source' : ByteArray) (n : Node) (field : String)
    (c c' : Node) : Prop :=
  c.Twin g source source' c' ∧ c.field = some field ∧ Grammar.Fitting n.kind c

theorem child?_twin {n n' : Node} (h : n.Twin g source source' n') (field : String) :
    Option.Rel (TwinsIn g source source' n field) (n.child? field) (n'.child? field) := by
  obtain ⟨head, cs⟩ := n
  obtain ⟨head', cs'⟩ := n'
  obtain ⟨-, hcs, hfit⟩ := Node.twin_mk h
  simp only [Node.child?, Node.children_mk]
  rcases find?_twin hcs field with ⟨hn, hn'⟩ | ⟨c, c', hc, hc', htwin, hmem, hrole⟩
  · rw [hn, hn']
    exact .none
  · rw [hc, hc']
    exact .some ⟨htwin, hrole, hfit c hmem⟩

theorem childIn_twin {n n' : Node} (h : n.Twin g source source' n') (field : String) :
    ReadAlike g (TwinsIn g source source' n field) (childIn n field) (childIn n' field) := by
  have hchild := child?_twin h field
  unfold childIn
  generalize n.child? field = c, n'.child? field = c' at hchild
  cases hchild with
  | none => exact malformed_alike h.head _
  | some hc => exact hc

/-- A child whose text is looked at is a token. -/
theorem TwinsIn.isToken {n c c' : Node} {field : String}
    (h : TwinsIn g source source' n field c c')
    (hread : Grammar.isRead n.kind (some field) = true) : c.IsToken :=
  h.2.2.1 (h.2.1 ▸ hread)

theorem operatorOf_twin {α : Type} {n n' : Node} (h : n.Twin g source source' n')
    (ofText? : String → Option α) (what : String) :
    ReadAlike g Eq (operatorOf source n ofText? what) (operatorOf source' n' ofText? what) := by
  refine (childIn_twin h "operator").bind fun c c' hc => ?_
  obtain ⟨text, htext, htext'⟩ := textOf_twin hc.1 (hc.isToken (by simp [Grammar.isRead,
    Grammar.readRoles]))
  simp only [htext, htext', bind, Except.bind]
  cases ofText? text with
  | some op => rfl
  | none => exact malformed_alike hc.1.head _

/-! ### Types -/

/-- The same type but for its places. -/
def SameType (g : Position → Position) (x x' : TypeExpr) : Prop :=
  x.moved g = x'.moved g

def SameTypes (g : Position → Position) (xs xs' : List TypeExpr) : Prop :=
  TypeExpr.allMoved g xs = TypeExpr.allMoved g xs'

theorem required_alike {α : Type} {R : α → α → Prop} {head head' : NodeHead}
    (h : head.Alike g head') (field : String) {found found' : Option (Except Diagnostic α)}
    (hf : Option.Rel (ReadAlike g R) found found') :
    ReadAlike g R (required head field found) (required head' field found') := by
  cases hf with
  | none => exact malformed_alike h _
  | some hr => exact hr

theorem typeForm_twin {head head' : NodeHead} {cs cs' : List Node}
    (h : Node.Twin g source source' (.mk head cs) (.mk head' cs'))
    {one one' : String → Option (Except Diagnostic TypeExpr)}
    (hone : ∀ field, Option.Rel (ReadAlike g (SameType g)) (one field) (one' field))
    {list list' : String → Option (Except Diagnostic (List TypeExpr))}
    (hlist : ∀ field, Option.Rel (ReadAlike g (SameTypes g)) (list field) (list' field)) :
    ReadAlike g (SameType g) (typeForm source head cs one list)
      (typeForm source' head' cs' one' list') := by
  obtain ⟨hhead, hcs, hfit⟩ := Node.twin_mk h
  have hspan := hhead.span
  unfold typeForm
  rw [← hhead.kind]
  split
  · rename_i hk
    obtain ⟨path, hpath, hpath'⟩ := pathOf_name h hk
    simp only [Node.children_mk] at hpath hpath'
    rw [hpath, hpath']
    change TypeExpr.name path (head.span.moved g) = TypeExpr.name path (head'.span.moved g)
    rw [hspan]
  · refine (required_alike hhead "pointee" (hone "pointee")).bind fun x x' hx => ?_
    change TypeExpr.moved g _ = TypeExpr.moved g _
    simp only [TypeExpr.moved, hspan, show x.moved g = x'.moved g from hx]
  · refine (childIn_twin h "size").bind fun c c' hc => ?_
    refine (numberOf_twin hc.1 (hc.isToken ?_)).bind fun size size' hsize => ?_
    · simp [Grammar.isRead, Grammar.readRoles]
    subst hsize
    refine (required_alike hhead "element" (hone "element")).bind fun x x' hx => ?_
    change TypeExpr.moved g _ = TypeExpr.moved g _
    simp only [TypeExpr.moved, hspan, show x.moved g = x'.moved g from hx]
  · refine (required_alike hhead "element" (hone "element")).bind fun x x' hx => ?_
    change TypeExpr.moved g _ = TypeExpr.moved g _
    simp only [TypeExpr.moved, hspan, show x.moved g = x'.moved g from hx]
  · refine (required_alike hhead "params" (hlist "params")).bind fun xs xs' hxs => ?_
    refine (required_alike hhead "returns" (hone "returns")).bind fun x x' hx => ?_
    change TypeExpr.moved g _ = TypeExpr.moved g _
    simp only [TypeExpr.moved, hspan, show x.moved g = x'.moved g from hx,
      show TypeExpr.allMoved g xs = TypeExpr.allMoved g xs' from hxs]
  · exact malformed_alike hhead _

mutual

theorem typeOf_twin : ∀ n n' : Node, n.Twin g source source' n' →
    ReadAlike g (SameType g) (typeOf source n) (typeOf source' n')
  | .mk head cs, .mk head' cs', h => by
    obtain ⟨hhead, hcs, -⟩ := Node.twin_mk h
    unfold typeOf
    rw [← hhead.kind]
    split
    · have hinside := typeInside_twin cs cs' hcs
      generalize typeInside source cs = r, typeInside source' cs' = r' at hinside
      cases hinside with
      | none => exact malformed_alike hhead _
      | some hr => exact hr
    · exact malformed_alike hhead _
termination_by structural n => n

theorem typeInside_twin : ∀ cs cs' : List Node, Node.AllTwin g source source' cs cs' →
    Option.Rel (ReadAlike g (SameType g)) (typeInside source cs) (typeInside source' cs')
  | [], [], _ => .none
  | [], _ :: _, h => h.1.elim
  | _ :: _, [], h => h.1.elim
  | .mk head cs :: rest, .mk head' cs' :: rest', h => by
    obtain ⟨hn, hrest⟩ := Node.allTwin_cons h
    obtain ⟨hhead, hcs, -⟩ := Node.twin_mk hn
    unfold typeInside
    rw [← hhead.named]
    split
    · exact .some (typeForm_twin hn (fun field => typeIn_twin field cs cs' hcs)
        fun field => typesIn_twin field cs cs' hcs)
    · exact typeInside_twin rest rest' hrest
termination_by structural cs => cs

theorem typeIn_twin (field : String) : ∀ cs cs' : List Node,
    Node.AllTwin g source source' cs cs' →
    Option.Rel (ReadAlike g (SameType g)) (typeIn source field cs) (typeIn source' field cs')
  | [], [], _ => .none
  | [], _ :: _, h => h.1.elim
  | _ :: _, [], h => h.1.elim
  | n :: rest, n' :: rest', h => by
    obtain ⟨hn, hrest⟩ := Node.allTwin_cons h
    unfold typeIn
    rw [← hn.1.field]
    split
    · exact .some (typeOf_twin n n' hn)
    · exact typeIn_twin field rest rest' hrest
termination_by structural cs => cs

theorem typesIn_twin (field : String) : ∀ cs cs' : List Node,
    Node.AllTwin g source source' cs cs' →
    Option.Rel (ReadAlike g (SameTypes g)) (typesIn source field cs) (typesIn source' field cs')
  | [], [], _ => .none
  | [], _ :: _, h => h.1.elim
  | _ :: _, [], h => h.1.elim
  | .mk head cs :: rest, .mk head' cs' :: rest', h => by
    obtain ⟨hn, hrest⟩ := Node.allTwin_cons h
    obtain ⟨hhead, hcs, -⟩ := Node.twin_mk hn
    unfold typesIn
    rw [← hhead.field]
    split
    · exact .some (typesOf_twin cs cs' hcs)
    · exact typesIn_twin field rest rest' hrest
termination_by structural cs => cs

theorem typesOf_twin : ∀ cs cs' : List Node, Node.AllTwin g source source' cs cs' →
    ReadAlike g (SameTypes g) (typesOf source cs) (typesOf source' cs')
  | [], [], _ => rfl
  | [], _ :: _, h => h.1.elim
  | _ :: _, [], h => h.1.elim
  | n :: rest, n' :: rest', h => by
    obtain ⟨hn, hrest⟩ := Node.allTwin_cons h
    unfold typesOf
    rw [← hn.1.named]
    split
    · refine (typeOf_twin n n' hn).bind fun x x' hx => ?_
      refine (typesOf_twin rest rest' hrest).bind fun xs xs' hxs => ?_
      change TypeExpr.allMoved g _ = TypeExpr.allMoved g _
      simp only [TypeExpr.allMoved, show x.moved g = x'.moved g from hx,
        show TypeExpr.allMoved g xs = TypeExpr.allMoved g xs' from hxs]
    · exact typesOf_twin rest rest' hrest
termination_by structural cs => cs

end

/-! ### Expressions -/

/-- The same expression but for its places. -/
def SameExpr (g : Position → Position) (e e' : Expr) : Prop :=
  e.moved g = e'.moved g

def SameExprs (g : Position → Position) (es es' : List Expr) : Prop :=
  Expr.allMoved g es = Expr.allMoved g es'

theorem orBad_alike {r r' : Except Diagnostic Expr} (h : ReadAlike g (SameExpr g) r r') :
    SameExpr g (orBad r) (orBad r') :=
  h.cases (fun _ _ he => he) fun _ _ hd => congrArg Expr.bad hd

theorem exprForm_twin {head head' : NodeHead} {cs cs' : List Node}
    (h : Node.Twin g source source' (.mk head cs) (.mk head' cs'))
    {one one' : String → Option Expr}
    (hone : ∀ field, Option.Rel (SameExpr g) (one field) (one' field))
    {first first' : Unit → Option Expr} (hfirst : Option.Rel (SameExpr g) (first ()) (first' ()))
    {list list' : String → Option (List Expr)}
    (hlist : ∀ field, Option.Rel (SameExprs g) (list field) (list' field)) :
    SameExpr g (exprForm source head cs one first list)
      (exprForm source' head' cs' one' first' list') := by
  obtain ⟨hhead, hcs, hfit⟩ := Node.twin_mk h
  have hspan := hhead.span
  have hsub : ∀ field, ((one field).getD (.bad (missingField head field))).moved g =
      ((one' field).getD (.bad (missingField head' field))).moved g := by
    intro field
    have hfield := hone field
    generalize one field = e, one' field = e' at hfield
    cases hfield with
    | none => exact congrArg Expr.bad (malformed_alike hhead _)
    | some he => exact he
  unfold exprForm
  dsimp only
  rw [← hhead.kind]
  split
  · rename_i hk
    obtain ⟨path, hpath, hpath'⟩ := pathOf_name h hk
    simp only [Node.children_mk] at hpath hpath'
    rw [hpath, hpath']
    change Expr.ident ⟨path, head.span.moved g⟩ = Expr.ident ⟨path, head'.span.moved g⟩
    rw [hspan]
  · refine (operatorOf_twin h BinaryOp.ofText? "binary").cases (fun op op' hop => ?_)
      fun d d' hd => ?_
    · simp only [SameExpr, Expr.moved, hsub, hop, hspan]
    · simp only [SameExpr, Expr.moved, hsub, hd]
  · refine orBad_alike ((operatorOf_twin h UnaryOp.ofText? "unary").bind fun op op' hop => ?_)
    subst hop
    change Expr.moved g (.unary op _ _) = Expr.moved g (.unary op _ _)
    simp only [Expr.moved, hsub, hspan]
  · simp only [SameExpr, Expr.moved, hsub, hspan]
  · rename_i hk
    refine orBad_alike ((childIn_twin h "func_name").bind fun c c' hc => ?_)
    obtain ⟨path, hpath, hpath'⟩ := pathOf_name hc.1 (hc.2.2.2 hk hc.2.1)
    rw [hpath, hpath']
    have hargs := hlist "args"
    change Expr.moved g (.call ⟨path, c.span⟩ _ _) = Expr.moved g (.call ⟨path, c'.span⟩ _ _)
    generalize list "args" = es, list' "args" = es' at hargs
    have hes : Expr.allMoved g (es.getD [.bad (missingField head "args")]) =
        Expr.allMoved g (es'.getD [.bad (missingField head' "args")]) := by
      cases hargs with
      | none => exact congrArg (fun d => [Expr.bad d]) (malformed_alike hhead _)
      | some hes => exact hes
    simp only [Expr.moved, Ident.moved, hc.1.1.span, hes, hspan]
  · refine (operatorOf_twin h AssignOp.ofText? "assignment").cases (fun op op' hop => ?_)
      fun d d' hd => ?_
    · simp only [SameExpr, Expr.moved, hsub, hop, hspan]
    · simp only [SameExpr, Expr.moved, hsub, hd]
  · generalize first () = e, first' () = e' at hfirst
    cases hfirst with
    | none => exact congrArg Expr.bad (malformed_alike hhead _)
    | some he => simp only [SameExpr, Expr.moved, show Expr.moved g _ = _ from he, hspan]
  · rename_i hk
    refine orBad_alike ((numberOf_twin h (h.2.1 (Or.inl hk))).bind fun value value' hvalue => ?_)
    subst hvalue
    change Expr.number value (head.span.moved g) = Expr.number value (head'.span.moved g)
    rw [hspan]
  · rename_i hk
    obtain ⟨text, htext, htext'⟩ := textOf_twin h (h.2.1 (Or.inr hk))
    simp only [Node.head_mk] at htext htext'
    rw [htext, htext']
    change Expr.string text (head.span.moved g) = Expr.string text (head'.span.moved g)
    rw [hspan]
  · simp only [SameExpr, Expr.moved, hspan]
  · simp only [SameExpr, Expr.moved, hspan]
  · simp only [SameExpr, Expr.moved, hspan]
  · exact congrArg Expr.bad (malformed_alike hhead _)

mutual

theorem exprOf_twin : ∀ n n' : Node, n.Twin g source source' n' →
    SameExpr g (exprOf source n) (exprOf source' n')
  | .mk head cs, .mk head' cs', h => by
    obtain ⟨hhead, hcs, -⟩ := Node.twin_mk h
    unfold exprOf
    rw [← hhead.kind]
    split
    · have hinside := exprInside_twin cs cs' hcs
      generalize exprInside source cs = r, exprInside source' cs' = r' at hinside
      cases hinside with
      | none => exact congrArg Expr.bad (malformed_alike hhead _)
      | some hr => exact hr
    · exact congrArg Expr.bad (malformed_alike hhead _)
termination_by structural n => n

theorem exprInside_twin : ∀ cs cs' : List Node, Node.AllTwin g source source' cs cs' →
    Option.Rel (SameExpr g) (exprInside source cs) (exprInside source' cs')
  | [], [], _ => .none
  | [], _ :: _, h => h.1.elim
  | _ :: _, [], h => h.1.elim
  | .mk head cs :: rest, .mk head' cs' :: rest', h => by
    obtain ⟨hn, hrest⟩ := Node.allTwin_cons h
    obtain ⟨hhead, hcs, -⟩ := Node.twin_mk hn
    unfold exprInside
    rw [← hhead.named]
    split
    · exact .some (exprForm_twin hn (fun field => exprIn_twin field cs cs' hcs)
        (firstExpr_twin cs cs' hcs) fun field => exprsIn_twin field cs cs' hcs)
    · exact exprInside_twin rest rest' hrest
termination_by structural cs => cs

theorem exprIn_twin (field : String) : ∀ cs cs' : List Node,
    Node.AllTwin g source source' cs cs' →
    Option.Rel (SameExpr g) (exprIn source field cs) (exprIn source' field cs')
  | [], [], _ => .none
  | [], _ :: _, h => h.1.elim
  | _ :: _, [], h => h.1.elim
  | n :: rest, n' :: rest', h => by
    obtain ⟨hn, hrest⟩ := Node.allTwin_cons h
    unfold exprIn
    rw [← hn.1.field]
    split
    · exact .some (exprOf_twin n n' hn)
    · exact exprIn_twin field rest rest' hrest
termination_by structural cs => cs

theorem firstExpr_twin : ∀ cs cs' : List Node, Node.AllTwin g source source' cs cs' →
    Option.Rel (SameExpr g) (firstExpr source cs) (firstExpr source' cs')
  | [], [], _ => .none
  | [], _ :: _, h => h.1.elim
  | _ :: _, [], h => h.1.elim
  | n :: rest, n' :: rest', h => by
    obtain ⟨hn, hrest⟩ := Node.allTwin_cons h
    unfold firstExpr
    rw [← hn.1.named]
    split
    · exact .some (exprOf_twin n n' hn)
    · exact firstExpr_twin rest rest' hrest
termination_by structural cs => cs

theorem exprsIn_twin (field : String) : ∀ cs cs' : List Node,
    Node.AllTwin g source source' cs cs' →
    Option.Rel (SameExprs g) (exprsIn source field cs) (exprsIn source' field cs')
  | [], [], _ => .none
  | [], _ :: _, h => h.1.elim
  | _ :: _, [], h => h.1.elim
  | .mk head cs :: rest, .mk head' cs' :: rest', h => by
    obtain ⟨hn, hrest⟩ := Node.allTwin_cons h
    obtain ⟨hhead, hcs, -⟩ := Node.twin_mk hn
    unfold exprsIn
    rw [← hhead.field]
    split
    · exact .some (exprsOf_twin cs cs' hcs)
    · exact exprsIn_twin field rest rest' hrest
termination_by structural cs => cs

theorem exprsOf_twin : ∀ cs cs' : List Node, Node.AllTwin g source source' cs cs' →
    SameExprs g (exprsOf source cs) (exprsOf source' cs')
  | [], [], _ => rfl
  | [], _ :: _, h => h.1.elim
  | _ :: _, [], h => h.1.elim
  | n :: rest, n' :: rest', h => by
    obtain ⟨hn, hrest⟩ := Node.allTwin_cons h
    have hfirst : (exprOf source n).moved g = (exprOf source' n').moved g := exprOf_twin n n' hn
    have hmore : Expr.allMoved g (exprsOf source rest) =
        Expr.allMoved g (exprsOf source' rest') := exprsOf_twin rest rest' hrest
    unfold exprsOf
    rw [← hn.1.named]
    split
    · simp only [SameExprs, Expr.allMoved, hfirst, hmore]
    · exact hmore
termination_by structural cs => cs

end

/-! ### Declarations -/

theorem nameIn_twin {n n' : Node} (h : n.Twin g source source' n') (field : String)
    (hread : Grammar.isRead n.kind (some field) = true) :
    ReadAlike g (fun x x' => x.moved g = x'.moved g) (nameIn source n field)
      (nameIn source' n' field) := by
  refine (childIn_twin h field).bind fun c c' hc => ?_
  obtain ⟨text, htext, htext'⟩ := textOf_twin hc.1 (hc.isToken hread)
  rw [htext, htext']
  change Name.mk text (g c.start) = Name.mk text (g c'.start)
  rw [hc.1.1.start]

theorem typeUseIn_twin {n n' : Node} (h : n.Twin g source source' n') (field : String) :
    ReadAlike g (fun x x' => x.moved g = x'.moved g) (typeUseIn source n field)
      (typeUseIn source' n' field) := by
  refine (childIn_twin h field).bind fun c c' hc => ?_
  refine (typeOf_twin c c' hc.1).bind fun x x' hx => ?_
  change TypeUse.mk (x.moved g) (g c.start) = TypeUse.mk (x'.moved g) (g c'.start)
  rw [hc.1.1.start, show x.moved g = x'.moved g from hx]

theorem bindingOf_twin {n n' : Node} (h : n.Twin g source source' n') :
    ReadAlike g (fun b b' => b.moved g = b'.moved g) (bindingOf source n)
      (bindingOf source' n') := by
  refine (nameIn_twin h "ident" (by simp [Grammar.isRead, Grammar.readRoles])).bind
    fun name name' hname => ?_
  refine (typeUseIn_twin h "typing").bind fun a a' ha => ?_
  change Binding.mk (name.moved g) (a.moved g) (n.span.moved g) =
    Binding.mk (name'.moved g) (a'.moved g) (n'.span.moved g)
  rw [hname, ha, h.1.span]

theorem paramOf_twin {n n' : Node} (h : n.Twin g source source' n') :
    (paramOf source n).moved g = (paramOf source' n').moved g := by
  unfold paramOf
  rw [← h.1.kind]
  split
  · exact (bindingOf_twin h).cases (fun _ _ hb => congrArg Param.binding hb)
      fun _ _ hd => congrArg Param.bad hd
  · rfl
  · exact congrArg Param.bad (malformed_alike h.head _)

theorem params_twin {cs cs' : List Node} (h : Node.AllTwin g source source' cs cs') :
    (cs.map (paramOf source)).map (·.moved g) = (cs'.map (paramOf source')).map (·.moved g) := by
  induction cs generalizing cs' with
  | nil =>
    rcases h.cases with ⟨-, rfl⟩ | ⟨_, _, _, _, hnil, _⟩
    · simp only [List.map_nil]
    · cases hnil
  | cons c cs ih =>
    rcases h.cases with ⟨hnil, -⟩ | ⟨_, _, c', cs', hcons, rfl, hc, hcs⟩
    · cases hnil
    cases hcons
    simp only [List.map_cons, paramOf_twin hc, ih hcs]

theorem headerOf_twin {n n' : Node} (h : n.Twin g source source' n')
    (hk : n.kind ≠ "call_expr") :
    ReadAlike g (fun x x' => x.moved g = x'.moved g) (headerOf source n)
      (headerOf source' n') := by
  refine (nameIn_twin h "func_name" (by simp [Grammar.isRead, Grammar.readRoles, hk])).bind
    fun name name' hname => ?_
  have hreturns := (typeUseIn_twin h "returns").moved
  refine (childIn_twin h "params").cases (fun c c' hc => ?_) fun d d' hd => ?_
  · change Header.moved g ⟨name, c.namedChildren.map (paramOf source), c.start, _⟩ =
      Header.moved g ⟨name', c'.namedChildren.map (paramOf source'), c'.start, _⟩
    simp only [Header.moved, hname, hreturns, params_twin hc.1.namedChildren, hc.1.1.start]
  · change Header.moved g ⟨name, [.bad d], d.pos, _⟩ = Header.moved g ⟨name', [.bad d'], d'.pos, _⟩
    have hpos : g d.pos = g d'.pos := congrArg Diagnostic.pos hd
    simp only [Header.moved, hname, hreturns, List.map_cons, List.map_nil, Param.moved, hd, hpos]

/-! ### Statements -/

/-- The same statement but for its places. -/
def SameStmt (g : Position → Position) (s s' : Stmt) : Prop :=
  s.moved g = s'.moved g

def SameStmts (g : Position → Position) (ss ss' : List Stmt) : Prop :=
  Stmt.allMoved g ss = Stmt.allMoved g ss'

def SameBlock (g : Position → Position) (b b' : Block) : Prop :=
  b.moved g = b'.moved g

theorem orBadStmt_alike {r r' : Except Diagnostic Stmt} (h : ReadAlike g (SameStmt g) r r') :
    SameStmt g (orBadStmt r) (orBadStmt r') :=
  h.cases (fun _ _ hs => hs) fun _ _ hd => congrArg Stmt.bad hd

theorem exprField_twin {n n' : Node} (h : n.Twin g source source' n') (field : String) :
    (exprField source n field).moved g = (exprField source' n' field).moved g := by
  unfold exprField
  exact (childIn_twin h field).cases (fun c c' hc => exprOf_twin c c' hc.1)
    fun _ _ hd => congrArg Expr.bad hd

theorem declareForm_twin {n n' : Node} (h : n.Twin g source source' n') :
    SameStmt g (declareForm source n) (declareForm source' n') := by
  have hinitial : Option.map (·.moved g) ((n.child? "initial").map (exprOf source)) =
      Option.map (·.moved g) ((n'.child? "initial").map (exprOf source')) := by
    have hchild := child?_twin h "initial"
    generalize n.child? "initial" = c, n'.child? "initial" = c' at hchild
    cases hchild with
    | none => rfl
    | some hc => exact congrArg some (exprOf_twin _ _ hc.1)
  have hbinding : ReadAlike g (fun b b' => b.moved g = b'.moved g)
      (childIn n "typed_ident" >>= bindingOf source)
      (childIn n' "typed_ident" >>= bindingOf source') :=
    (childIn_twin h "typed_ident").bind fun c c' hc => bindingOf_twin hc.1
  unfold declareForm
  dsimp only
  refine hbinding.cases (fun b b' hb => ?_) fun d d' hd => ?_
  · simp only [SameStmt, Stmt.moved, hb, hinitial, h.1.span]
  · generalize (n.child? "initial").map (exprOf source) = e,
      (n'.child? "initial").map (exprOf source') = e' at hinitial
    cases e <;> cases e' <;> first | cases hinitial | skip
    · exact congrArg Stmt.bad hd
    · simp only [SameStmt, Stmt.moved, Option.some.inj hinitial, hd]

theorem externalForm_twin {n n' : Node} (h : n.Twin g source source' n') :
    SameStmt g (externalForm source n) (externalForm source' n') := by
  unfold externalForm
  rcases h.namedChildren.cases with ⟨hc, hc'⟩ | ⟨c, rest, c', rest', hc, hc', htwin, -⟩
  · rw [hc, hc']
    exact congrArg Stmt.bad (malformed_alike h.head _)
  rw [hc, hc']
  dsimp only
  rw [← htwin.1.kind]
  split
  · refine orBadStmt_alike ((childIn_twin htwin "typed_ident").bind fun d d' hd => ?_)
    refine (bindingOf_twin hd.1).bind fun b b' hb => ?_
    change Stmt.externalVariable (b.moved g) (c.span.moved g).start (n.span.moved g) =
      Stmt.externalVariable (b'.moved g) (c'.span.moved g).start (n'.span.moved g)
    rw [hb, htwin.1.span, h.1.span]
  · rename_i hk
    refine orBadStmt_alike ((headerOf_twin htwin (by simp [hk])).bind fun x x' hx => ?_)
    change Stmt.externalFunction (x.moved g) (c.span.moved g) (n.span.moved g) =
      Stmt.externalFunction (x'.moved g) (c'.span.moved g) (n'.span.moved g)
    rw [hx, htwin.1.span, h.1.span]
  · exact congrArg Stmt.bad (malformed_alike htwin.head _)

theorem withBlock_alike {head head' : NodeHead} (h : head.Alike g head') (field : String)
    {first first' : Expr} (hfirst : first.moved g = first'.moved g) {block block' : Option Block}
    (hblock : Option.Rel (SameBlock g) block block') {k k' : Block → Stmt}
    (hk : ∀ b b', SameBlock g b b' → SameStmt g (k b) (k' b')) :
    SameStmt g (withBlock head field first block k) (withBlock head' field first' block' k') := by
  cases hblock with
  | none =>
    simp only [withBlock, SameStmt, Stmt.moved, hfirst]
    exact congrArg _ (malformed_alike h _)
  | some hb => exact hk _ _ hb

section
variable {n n' : Node} {block block' : String → Option Block}
  {alternative alternative' : Unit → Option Block}

theorem ifForm_alike (h : n.head.Alike g n'.head)
    (htest : (exprField source n "condition").moved g = (exprField source' n' "condition").moved g)
    (hblock : Option.Rel (SameBlock g) (block "consequence") ( block' "consequence"))
    (halternative : Option.Rel (SameBlock g) (alternative ()) (alternative' ())) :
    SameStmt g (ifForm source n block alternative) (ifForm source' n' block' alternative') := by
  have hspan : n.span.moved g = n'.span.moved g := h.span
  refine withBlock_alike h _ htest hblock fun b b' hb => ?_
  have hsame : b.moved g = b'.moved g := hb
  generalize alternative () = a, alternative' () = a' at halternative
  cases halternative with
  | none => simp only [SameStmt, Stmt.moved, htest, hsame, hspan]
  | some ha =>
    simp only [SameStmt, Stmt.moved, htest, hsame, hspan, show Block.moved g _ = _ from ha]

theorem ifForm_twin (h : n.Twin g source source' n')
    (hblock : ∀ field, Option.Rel (SameBlock g) (block field) (block' field))
    (halternative : Option.Rel (SameBlock g) (alternative ()) (alternative' ())) :
    SameStmt g (ifForm source n block alternative) (ifForm source' n' block' alternative') :=
  ifForm_alike h.head (exprField_twin h "condition") (hblock "consequence") halternative

theorem whileForm_alike (h : n.head.Alike g n'.head)
    (htest : (exprField source n "condition").moved g = (exprField source' n' "condition").moved g)
    {body body' : Option Block} (hbody : Option.Rel (SameBlock g) body body') :
    SameStmt g
      (withBlock n.head "body" (exprField source n "condition") body fun b =>
        .whileLoop (exprField source n "condition") b n.span)
      (withBlock n'.head "body" (exprField source' n' "condition") body' fun b =>
        .whileLoop (exprField source' n' "condition") b n'.span) := by
  have hspan : n.span.moved g = n'.span.moved g := h.span
  refine withBlock_alike h _ htest hbody fun b b' hb => ?_
  simp only [SameStmt, Stmt.moved, htest, hspan, show b.moved g = b'.moved g from hb]

theorem funcForm_alike (h : n.head.Alike g n'.head)
    (hheader : ReadAlike g (fun x x' => x.moved g = x'.moved g) (headerOf source n)
      (headerOf source' n'))
    {body body' : Option Block} (hbody : Option.Rel (SameBlock g) body body') :
    SameStmt g
      (orBadStmt do
        let header ← headerOf source n
        return .func header (body.getD (.mk [.bad (missingField n.head "body")] n.span)) n.span)
      (orBadStmt do
        let header ← headerOf source' n'
        return .func header (body'.getD (.mk [.bad (missingField n'.head "body")] n'.span))
          n'.span) := by
  have hspan : n.span.moved g = n'.span.moved g := h.span
  refine orBadStmt_alike (hheader.bind fun x x' hx => ?_)
  change Stmt.func (x.moved g) (Block.moved g _) (n.span.moved g) =
    Stmt.func (x'.moved g) (Block.moved g _) (n'.span.moved g)
  cases hbody with
  | none =>
    have hbad := malformed_alike h ("missing field `" ++ "body" ++ "`")
    simp only [Option.getD_none, Block.moved, Stmt.allMoved, Stmt.moved, missingField, hx, hbad,
      hspan]
  | some hb => simp only [Option.getD_some, hx, hspan, show Block.moved g _ = _ from hb]

theorem stmtForm_twin (h : n.Twin g source source' n')
    (hblock : ∀ field, Option.Rel (SameBlock g) (block field) (block' field))
    (halternative : Option.Rel (SameBlock g) (alternative ()) (alternative' ())) :
    SameStmt g (stmtForm source n block alternative)
      (stmtForm source' n' block' alternative') := by
  have hspan := h.1.span
  unfold stmtForm
  dsimp only
  rw [← h.1.kind]
  split
  · simp only [SameStmt, Stmt.moved, hspan]
  · refine orBadStmt_alike ((nameIn_twin h "name" ?_).bind fun name name' hname => ?_)
    · simp [Grammar.isRead, Grammar.readRoles]
    change Stmt.mod (name.moved g) (n.span.moved g) = Stmt.mod (name'.moved g) (n'.span.moved g)
    rw [hname, hspan]
  · exact declareForm_twin h
  · exact externalForm_twin h
  · exact whileForm_alike h.head (exprField_twin h "condition") (hblock "body")
  · exact ifForm_twin h hblock halternative
  · simp only [SameStmt, Stmt.moved, hspan, exprField_twin h "returns"]
  · refine orBadStmt_alike ((nameIn_twin h "ident" ?_).bind fun name name' hname => ?_)
    · simp [Grammar.isRead, Grammar.readRoles]
    refine (typeUseIn_twin h "typing").bind fun a a' ha => ?_
    change Stmt.typeAlias (name.moved g) (a.moved g) (n.span.moved g) =
      Stmt.typeAlias (name'.moved g) (a'.moved g) (n'.span.moved g)
    rw [hname, ha, hspan]
  · rename_i hk
    exact funcForm_alike h.head (headerOf_twin h (by simp [hk])) (hblock "body")
  · exact congrArg₂ Stmt.expr (exprOf_twin n n' h) hspan
  · exact congrArg Stmt.bad (malformed_alike h.head _)

end

/-- A node in the place of a block, which is one or cannot be read. -/
theorem block_alike {head head' : NodeHead} (h : head.Alike g head') {ss ss' : List Stmt}
    (hss : head.kind = "codeblock" → SameStmts g ss ss') :
    Option.Rel (SameBlock g)
      (if head.kind == "codeblock" then some (.mk ss head.span)
        else some (.mk [.bad (unwanted head "codeblock")] head.span))
      (if head'.kind == "codeblock" then some (.mk ss' head'.span)
        else some (.mk [.bad (unwanted head' "codeblock")] head'.span)) := by
  rw [← h.kind]
  split
  · rename_i hk
    refine .some ?_
    simp only [SameBlock, Block.moved, show Stmt.allMoved g ss = _ from hss (beq_iff_eq.mp hk),
      h.span]
  · refine .some ?_
    have hbad := malformed_alike h ("expected `" ++ "codeblock" ++ "`")
    simp only [SameBlock, Block.moved, Stmt.allMoved, Stmt.moved, unwanted, hbad, h.span]

/-- A node in the place of an alternative, which may be a further `if`. -/
theorem alternative_alike {head head' : NodeHead} (h : head.Alike g head') {s s' : Stmt}
    (hs : head.kind = "if" → SameStmt g s s') {ss ss' : List Stmt}
    (hss : head.kind = "codeblock" → SameStmts g ss ss') :
    Option.Rel (SameBlock g)
      (if head.kind == "if" then some (.mk [s] head.span)
        else if head.kind == "codeblock" then some (.mk ss head.span)
        else some (.mk [.bad (unwanted head "codeblock")] head.span))
      (if head'.kind == "if" then some (.mk [s'] head'.span)
        else if head'.kind == "codeblock" then some (.mk ss' head'.span)
        else some (.mk [.bad (unwanted head' "codeblock")] head'.span)) := by
  have hblock := block_alike h hss
  rw [← h.kind] at hblock ⊢
  split
  · rename_i hk
    refine .some ?_
    simp only [SameBlock, Block.moved, Stmt.allMoved, show s.moved g = _ from hs (beq_iff_eq.mp hk),
      h.span]
  · exact hblock

mutual

theorem stmtOf_twin : ∀ n n' : Node, n.Twin g source source' n' →
    SameStmt g (stmtOf source n) (stmtOf source' n')
  | .mk head cs, .mk head' cs', h => by
    obtain ⟨hhead, hcs, -⟩ := Node.twin_mk h
    unfold stmtOf
    rw [← hhead.kind]
    split
    · have hinside := stmtInside_twin cs cs' hcs
      generalize stmtInside source cs = r, stmtInside source' cs' = r' at hinside
      cases hinside with
      | none => exact congrArg Stmt.bad (malformed_alike hhead _)
      | some hr => exact hr
    · exact congrArg Stmt.bad (malformed_alike hhead _)
termination_by structural n => n

theorem stmtInside_twin : ∀ cs cs' : List Node, Node.AllTwin g source source' cs cs' →
    Option.Rel (SameStmt g) (stmtInside source cs) (stmtInside source' cs')
  | [], [], _ => .none
  | [], _ :: _, h => h.1.elim
  | _ :: _, [], h => h.1.elim
  | .mk head cs :: rest, .mk head' cs' :: rest', h => by
    obtain ⟨hn, hrest⟩ := Node.allTwin_cons h
    obtain ⟨hhead, hcs, -⟩ := Node.twin_mk hn
    unfold stmtInside
    rw [← hhead.named]
    split
    · exact .some (stmtForm_twin hn (fun field => blockIn_twin field cs cs' hcs)
        (alternativeIn_twin cs cs' hcs))
    · exact stmtInside_twin rest rest' hrest
termination_by structural cs => cs

theorem blockIn_twin (field : String) : ∀ cs cs' : List Node,
    Node.AllTwin g source source' cs cs' →
    Option.Rel (SameBlock g) (blockIn source field cs) (blockIn source' field cs')
  | [], [], _ => .none
  | [], _ :: _, h => h.1.elim
  | _ :: _, [], h => h.1.elim
  | .mk head cs :: rest, .mk head' cs' :: rest', h => by
    obtain ⟨hn, hrest⟩ := Node.allTwin_cons h
    obtain ⟨hhead, hcs, -⟩ := Node.twin_mk hn
    unfold blockIn
    rw [← hhead.field]
    split
    · exact block_alike hhead fun _ => stmtsOf_twin cs cs' hcs
    · exact blockIn_twin field rest rest' hrest
termination_by structural cs => cs

theorem alternativeIn_twin : ∀ cs cs' : List Node, Node.AllTwin g source source' cs cs' →
    Option.Rel (SameBlock g) (alternativeIn source cs) (alternativeIn source' cs')
  | [], [], _ => .none
  | [], _ :: _, h => h.1.elim
  | _ :: _, [], h => h.1.elim
  | .mk head cs :: rest, .mk head' cs' :: rest', h => by
    obtain ⟨hn, hrest⟩ := Node.allTwin_cons h
    obtain ⟨hhead, hcs, -⟩ := Node.twin_mk hn
    unfold alternativeIn
    rw [← hhead.field]
    split
    · exact alternative_alike hhead
        (fun _ => ifForm_twin hn (fun field => blockIn_twin field cs cs' hcs)
          (alternativeIn_twin cs cs' hcs))
        fun _ => stmtsOf_twin cs cs' hcs
    · exact alternativeIn_twin rest rest' hrest
termination_by structural cs => cs

/-- **Trees of the same shape are read as the same statements but for their places.** -/
theorem stmtsOf_twin : ∀ cs cs' : List Node, Node.AllTwin g source source' cs cs' →
    SameStmts g (stmtsOf source cs) (stmtsOf source' cs')
  | [], [], _ => rfl
  | [], _ :: _, h => h.1.elim
  | _ :: _, [], h => h.1.elim
  | n :: rest, n' :: rest', h => by
    obtain ⟨hn, hrest⟩ := Node.allTwin_cons h
    have hfirst : (stmtOf source n).moved g = (stmtOf source' n').moved g := stmtOf_twin n n' hn
    have hmore : Stmt.allMoved g (stmtsOf source rest) =
        Stmt.allMoved g (stmtsOf source' rest') := stmtsOf_twin rest rest' hrest
    unfold stmtsOf
    rw [← hn.1.named]
    split
    · simp only [SameStmts, Stmt.allMoved, hfirst, hmore]
    · exact hmore
termination_by structural cs => cs

end

end Surface
end BlockC
