import BlockC.Grammar.SourceFile
import BlockC.Proofs.StackInvariant
import BlockC.Proofs.TreeReading
import BlockC.Tree.Check

/-! # Properties that go from children to parents

Some properties of a tree hold if they hold of its leaves and go from the children of a node to the
node (`Inherited`).  They hold of every node in every frame of the stack, from the first token to
the last (`Holds`), so of the tree that is built in the end (`drive_holds`).

Two such properties are used later: a tree built from known tokens has no errors and no placeholders
(`clean_of_drive`), and the nodes whose text is looked at are tokens (`legible_of_drive`).
-/
namespace BlockC
namespace Grammar

/-- The kinds of nodes that the grammar puts together. -/
def builtKinds : List String :=
  ["expr", "ident_expr", "unary_expr", "parenthesized_expr", "binary_expr", "assignment_expr",
   "cond_expr", "call_expr", "argument_list", "type_expr", "pointer_type", "array_type",
   "slice_type", "func_type", "type_list", "stmt", "empty", "mod", "declare", "external",
   "external_function", "external_variable", "func", "type_alias", "while", "if", "return",
   "typed_ident", "params", "variadic", "codeblock", "source_file"]

/-- The roles in which the text of a node is looked at.  The function that is called is looked into
instead. -/
def readRoles : List (Option String) :=
  [some "operator", some "size", some "name", some "ident", some "func_name"]

/-- Whether the text of a child is looked at. -/
def isRead (kind : String) (field : Option String) : Bool :=
  (readRoles.contains field && !(kind == "call_expr" && field == some "func_name")) ||
    kind == "ident_expr"

end Grammar

/-- A node without children that a token is. -/
def Node.IsToken (n : Node) : Prop :=
  ∃ (t : Token) (field : Option String), n = (leaf t).inField field

@[simp] theorem Node.isToken_leaf (t : Token) : (leaf t).IsToken :=
  ⟨t, none, rfl⟩

@[simp] theorem Node.isToken_inField (t : Token) (field : Option String) :
    ((leaf t).inField field).IsToken :=
  ⟨t, field, rfl⟩

namespace Grammar

/-- A child that can be read under its parent: where its text is looked at it is a token, and where
the texts below it are, it is a name. -/
def Fitting (kind : String) (c : Node) : Prop :=
  (isRead kind c.field = true → c.IsToken) ∧
    (kind = "call_expr" → c.field = some "func_name" → c.kind = "ident_expr")

/-- A property that goes from the children of a node to the node. -/
structure Inherited (T : Token → Prop) (P : Node → Prop) : Prop where
  leaf : ∀ t, T t → P (.leaf t)
  inField : ∀ n field, P n → P (n.inField field)
  child : ∀ n, P n → ∀ c ∈ n.children, P c
  assemble : ∀ kind pos cs, kind ∈ builtKinds → (∀ c ∈ cs, P c) →
    (∀ c ∈ cs, Fitting kind c) → P (.assemble kind pos cs)

/-- A part that only has fitting children. -/
def Part.Legible (kind : String) : Part → Prop
  | .token _ _ => kind ≠ "call_expr"
  | .node _ field | .hole field => field ∉ readRoles ∧ kind ≠ "ident_expr"
  | .choice c => (kind = "ident_expr" → c = .segments) ∧ kind ≠ "call_expr" ∧
      (c = .size → kind = "array_type" ∨ kind = "slice_type")

/-- The property holds of all nodes of the frame. -/
def Frame.Holds (P : Node → Prop) : Frame → Prop
  | .partly kind done todo => kind ∈ builtKinds ∧
      (∀ c ∈ done, P c ∧ Fitting kind c) ∧
      ∀ part ∈ todo, part.Legible kind
  | .operators left _ => P left
  | .operand _ => True
  | .complete node => P node

section
variable {T : Token → Prop} {P : Node → Prop}

theorem fitting_token {kind : String} {t : Token} {field : Option String}
    (h : kind ≠ "call_expr") : Fitting kind ((Node.leaf t).inField field) :=
  ⟨fun _ => Node.isToken_inField t field, fun hk => absurd hk h⟩

theorem fitting_node {kind : String} {n : Node} {field : Option String} (h : field ∉ readRoles)
    (hk : kind ≠ "ident_expr") : Fitting kind (n.inField field) := by
  refine ⟨fun hread => ?_, fun _ hf => ?_⟩
  · simp [isRead, h, hk] at hread
  · obtain rfl : field = some "func_name" := hf
    exact absurd h (by decide)

/-- A choice that renames a node makes an array type a slice type. -/
theorem rename?_eq_some {c : Choice} {k : Kind} {name : String} (h : c.rename? k = some name) :
    c = .size ∧ name = "slice_type" := by
  unfold Choice.rename? at h
  split at h
  · exact ⟨rfl, (Option.some.inj h).symm⟩
  · cases h

theorem legible_expand {kind : String} {c : Choice} (h : (Part.choice c).Legible kind) (k : Kind) :
    ∀ part ∈ c.expand k, part.Legible ((c.rename? k).getD kind) := by
  suffices hall : ∀ part ∈ c.options, part.Legible ((c.rename? k).getD kind) from
    fun part hp => hall part (c.expand_subset_options k hp)
  by_cases hc : c = .size
  · -- the only choice that may rename its node, and then from one array type to the other
    subst hc
    have hkind : (Choice.size.rename? k).getD kind = "array_type" ∨
        (Choice.size.rename? k).getD kind = "slice_type" := by
      cases hname : Choice.size.rename? k with
      | none => exact h.2.2 rfl
      | some name => exact .inr (rename?_eq_some hname).2
    rcases hkind with hkind | hkind <;>
      simp [hkind, Choice.options, Part.Legible, Part.mark, readRoles]
  · rw [Choice.rename?_eq_none hc, Option.getD_none]
    have hcall : kind ≠ "call_expr" := h.2.1
    have hident : c ≠ .segments → kind ≠ "ident_expr" := fun hne hk => hne (h.1 hk)
    cases c with
    | size => exact absurd rfl hc
    | segments => simp [Choice.options, Part.Legible, Part.mark, hcall]
    | _ => simp [Choice.options, Part.Legible, Part.mark, Part.word, readRoles, hcall, hident]

/-- Opening a choice keeps the property. -/
theorem holds_settle {kind : String} {done : List Node} {todo : List Part}
    (h : (Frame.partly kind done todo).Holds P) (k : Kind) :
    (Frame.partly (settle kind k todo).1 done (settle kind k todo).2).Holds P := by
  obtain ⟨hkind, hdone, htodo⟩ := h
  cases todo with
  | nil => exact ⟨hkind, hdone, htodo⟩
  | cons part rest =>
    cases part with
    | token _ _ | node _ _ | hole _ => exact ⟨hkind, hdone, htodo⟩
    | choice c =>
      have hc := htodo (.choice c) (by simp)
      have hexpand := legible_expand hc k
      have hrest : ∀ part ∈ rest, part.Legible kind := fun part hp => htodo part (by simp [hp])
      cases hname : c.rename? k with
      | none =>
        simp only [settle, hname, Option.getD_none] at hexpand ⊢
        exact ⟨hkind, hdone, List.forall_mem_append.mpr ⟨hexpand, hrest⟩⟩
      | some name =>
        obtain ⟨hsize, rfl⟩ := rename?_eq_some hname
        simp only [settle, hname, Option.getD_some] at hexpand ⊢
        -- Neither of the two kinds is looked at in a way of its own.
        have hsame : ∀ field, isRead "slice_type" field = isRead kind field := by
          rcases hc.2.2 hsize with rfl | rfl <;> simp [isRead]
        refine ⟨by decide, fun n hn => ?_, List.forall_mem_append.mpr ⟨hexpand, fun part hp => ?_⟩⟩
        · obtain ⟨hP, hfit, -⟩ := hdone n hn
          exact ⟨hP, fun hread => hfit (hsame n.field ▸ hread), fun hk => absurd hk (by decide)⟩
        · have hpart := hrest part hp
          cases part with
          | token _ _ => simp [Part.Legible]
          | node _ _ | hole _ => exact ⟨hpart.1, by simp⟩
          | choice c' => exact ⟨by simp, by simp, fun _ => Or.inr rfl⟩

theorem holds_complete (hP : Inherited T P) {kind : String} {done : List Node}
    (h : (Frame.partly kind done []).Holds P) : P (.assemble kind .origin done.reverse) := by
  obtain ⟨hkind, hdone, -⟩ := h
  exact hP.assemble kind .origin _ hkind (fun c hc => (hdone c (by simpa using hc)).1)
    fun c hc => (hdone c (by simpa using hc)).2

theorem wrapped_holds (hP : Inherited T P) {n : Node} (h : P n) : P (wrapped n) := by
  refine hP.assemble "expr" _ _ (by decide) (fun c hc => ?_) (fun c hc => ?_)
  · obtain rfl := List.mem_singleton.mp hc
    exact hP.inField n none h
  · obtain rfl := List.mem_singleton.mp hc
    exact fitting_node (by decide) (by decide)

/-- A frame that waits for a node to wrap. -/
theorem wrapper_holds {kind : String} {field : Option String} (hkind : kind ∈ builtKinds)
    (hfield : field ∉ readRoles) (hnone : kind ≠ "ident_expr") :
    (Frame.partly kind [] [.hole field]).Holds P :=
  ⟨hkind, by simp, by simpa [Part.Legible, hnone] using hfield⟩

/-- A node whose first token is there already. -/
theorem opened_holds (hP : Inherited T P) {kind : String} {t : Token} {field : Option String}
    {todo : List Part} (ht : T t) (hkind : kind ∈ builtKinds ∧ kind ≠ "call_expr")
    (htodo : ∀ part ∈ todo, part.Legible kind) : (opened kind t field todo).Holds P := by
  refine ⟨hkind.1, fun c hc => ?_, htodo⟩
  obtain rfl := List.mem_singleton.mp hc
  exact ⟨hP.inField _ _ (hP.leaf t ht), fitting_token hkind.2⟩

theorem exprFrom_holds (hP : Inherited T P) {above : Level} {t : Token} {frames : List Frame}
    (ht : T t) (h : exprFrom above t = .ok frames) : ∀ f ∈ frames, f.Holds P := by
  have hopened : ∀ (kind : String) (field : Option String) (todo : List Part),
      kind ∈ builtKinds ∧ kind ≠ "call_expr" → (∀ part ∈ todo, part.Legible kind) →
      ∀ f ∈ [opened kind t field todo, .operand above], f.Holds P := by
    intro kind field todo hkind htodo
    simpa [Frame.Holds] using opened_holds hP ht hkind htodo
  cases exprBegins_of_ok h with
  | literal hk => simpa [Frame.Holds] using wrapped_holds hP (hP.leaf t ht)
  | name hk => exact hopened _ _ _ (by decide) (by simp [Part.Legible])
  | parenthesized hk =>
    exact hopened _ _ _ (by decide) (by simp [Part.Legible, readRoles, Part.mark])
  | signed hk => exact hopened _ _ _ (by decide) (by simp [Part.Legible, readRoles])

theorem typeFrom_holds (hP : Inherited T P) {t : Token} {frames : List Frame}
    (ht : T t) (h : typeFrom t = .ok frames) : ∀ f ∈ frames, f.Holds P := by
  have hopened : ∀ (kind : String) (todo : List Part), kind ∈ builtKinds ∧ kind ≠ "call_expr" →
      (∀ part ∈ todo, part.Legible kind) →
      ∀ f ∈ [opened kind t none todo, .partly "type_expr" [] [.hole none]], f.Holds P := by
    intro kind todo hkind htodo
    have hwrapper : (Frame.partly "type_expr" [] [.hole none]).Holds P :=
      wrapper_holds (by decide) (by decide) (by decide)
    simpa [hwrapper] using opened_holds hP ht hkind htodo
  unfold typeFrom at h
  split at h <;> cases h <;>
    exact hopened _ _ (by decide) (by simp [Part.Legible, readRoles, Part.mark])

theorem stmtFrame?_holds (hP : Inherited T P) {t : Token} {f : Frame} (ht : T t)
    (h : stmtFrame? t = some f) : f.Holds P := by
  unfold stmtFrame? at h
  split at h <;> cases h <;> refine opened_holds hP ht (by decide) ?_ <;>
    simp [Part.Legible, readRoles, Part.mark]

theorem stmtFrom_holds (hP : Inherited T P) {t : Token} {frames : List Frame} (ht : T t)
    (h : stmtFrom t = .ok frames) : ∀ f ∈ frames, f.Holds P := by
  have hwrapper : (Frame.partly "stmt" [] [.hole none]).Holds P :=
    wrapper_holds (by decide) (by decide) (by decide)
  cases stmtBegins_of_ok h with
  | form hf => simpa [hwrapper] using stmtFrame?_holds hP ht hf
  | expr hexpr =>
    refine List.forall_mem_append.mpr ⟨exprFrom_holds hP ht hexpr, ?_⟩
    simpa using hwrapper

/-- What a production starts with. -/
theorem begin_holds (hP : Inherited T P) {p : Production} {t : Token} {frames : List Frame}
    (ht : T t) (h : p.begin t = .ok frames) : ∀ f ∈ frames, f.Holds P := by
  have hopened : ∀ (kind : String) (field : Option String) (todo : List Part),
      kind ∈ builtKinds ∧ kind ≠ "call_expr" → (∀ part ∈ todo, part.Legible kind) →
      ∀ f ∈ [opened kind t field todo], f.Holds P := by
    intro kind field todo hkind htodo
    simpa using opened_holds hP ht hkind htodo
  cases p with
  | expr above => exact exprFrom_holds hP ht h
  | typeExpr => exact typeFrom_holds hP ht h
  | stmt => exact stmtFrom_holds hP ht h
  | literal =>
    simp only [Production.begin] at h
    split at h
    · cases h
      simpa [Frame.Holds] using hP.leaf t ht
    · cases h
  | name | typeList | typedIdent | params | codeblock =>
    obtain ⟨-, rfl⟩ := requiring_eq_ok h
    refine hopened _ _ _ (by decide) ?_
    simp [Part.Legible, readRoles, Part.mark, Part.word]
  | externalVariable =>
    obtain ⟨-, rfl⟩ := requiring_eq_ok h
    have hwrapper : (Frame.partly "external_variable" [] [.hole (some "typed_ident")]).Holds P :=
      wrapper_holds (by decide) (by decide) (by decide)
    have hident : (typedIdentFrom t).Holds P :=
      opened_holds hP ht (by decide) (by simp [Part.Legible, readRoles, Part.mark])
    simpa [hwrapper] using hident
  | signed | parenthesized | pointerType | arrayType | funcType | mod | declare | variadic
  | external | externalFunction | func | typeAlias | whileLoop | ifElse | returned =>
    cases h
    refine hopened _ _ _ (by decide) ?_
    simp [Part.Legible, readRoles, Part.mark]

/-- An operation whose left operand and operator are there already. -/
theorem operation_holds (hP : Inherited T P) {kind : String} {left : Node} {t : Token}
    {field role : Option String} {todo : List Part} (ht : T t) (hleft : P left)
    (hkind : kind ∈ builtKinds ∧ kind ≠ "call_expr" ∧ kind ≠ "ident_expr")
    (hrole : role ∉ readRoles) (htodo : ∀ part ∈ todo, part.Legible kind) :
    (Frame.partly kind [(Node.leaf t).inField field, left.inField role] todo).Holds P := by
  refine ⟨hkind.1, List.forall_mem_cons.mpr ⟨?_, List.forall_mem_singleton.mpr ?_⟩, htodo⟩
  · exact ⟨hP.inField _ _ (hP.leaf t ht), fitting_token hkind.2.1⟩
  · exact ⟨hP.inField _ _ hleft, fitting_node hrole hkind.2.2⟩

/-- What an operator starts with. -/
theorem operation?_holds (hP : Inherited T P) {left : Node} {t : Token} {level : Level}
    {role : OperatorRole} {frames : List Frame} (ht : T t) (hleft : P left)
    (h : operation? left t level role = some frames) : ∀ f ∈ frames, f.Holds P := by
  cases role with
  | binary | assignment | conditional =>
    cases h
    refine List.forall_mem_singleton.mpr (operation_holds hP ht hleft (by decide) (by decide) ?_)
    simp [Part.Legible, readRoles, Part.mark]
  | call =>
    obtain ⟨callee, hcallee, hkind, rfl⟩ := operation?_call_eq_some.mp h
    have hP' : P callee := by
      unfold Node.onlyNamedChild? at hcallee
      split at hcallee
      · rename_i child hchild
        cases hcallee
        have hmem : child ∈ left.namedChildren := by simp [hchild]
        have hmem := (List.mem_filter.mp hmem).1
        exact hP.inField _ _ (hP.child left hleft child hmem)
      · cases hcallee
    have hargs : (opened "argument_list" t none
        [.choice .arguments, .mark .closeParen]).Holds P :=
      opened_holds hP ht (by decide) (by simp [Part.Legible, Part.mark])
    have hcall : (Frame.partly "call_expr" [callee.inField (some "func_name")]
        [.hole (some "args")]).Holds P := by
      have hfits : Fitting "call_expr" (callee.inField (some "func_name")) :=
        ⟨fun hread => by simp [isRead] at hread, fun _ _ => hkind⟩
      exact ⟨by decide, List.forall_mem_singleton.mpr ⟨hP.inField _ _ hP', hfits⟩,
        by simp [Part.Legible, readRoles]⟩
    simpa [hargs] using hcall

/-- What a frame does before a token keeps the property. -/
theorem before_holds (hP : Inherited T P) {t : Token} {f : Frame} (hf : f.Holds P) :
    (∀ n, f.before t = .complete n → P n) ∧
      (∀ frames, T t → f.before t = .shift frames → ∀ g ∈ frames, g.Holds P) := by
  constructor
  · intro n hn
    cases Frame.before_eq_complete_iff.mp hn with
    | complete n => exact hf
    | operators hle => exact hf
    | partly hset =>
      have hholds := holds_settle hf t.kind
      rw [hset] at hholds
      exact holds_complete hP hholds
  · intro frames ht hs
    cases Frame.before_eq_shift_iff.mp hs with
    | operators hop hlt hinner =>
      refine List.forall_mem_append.mpr ⟨operation?_holds hP ht hf hinner, ?_⟩
      simp [Frame.Holds]
    | token hset =>
      have hholds := holds_settle hf t.kind
      rw [hset] at hholds
      obtain ⟨hkind, hdone, htodo⟩ := hholds
      obtain ⟨hpart, hrest⟩ := List.forall_mem_cons.mp htodo
      refine List.forall_mem_singleton.mpr ⟨hkind, List.forall_mem_cons.mpr ⟨?_, hdone⟩, hrest⟩
      exact ⟨hP.inField _ _ (hP.leaf t ht), fitting_token hpart⟩
    | node hset hinner =>
      have hholds := holds_settle hf t.kind
      rw [hset] at hholds
      obtain ⟨hkind, hdone, htodo⟩ := hholds
      obtain ⟨hpart, hrest⟩ := List.forall_mem_cons.mp htodo
      exact List.forall_mem_append.mpr ⟨begin_holds hP ht hinner, List.forall_mem_singleton.mpr
        ⟨hkind, hdone, List.forall_mem_cons.mpr ⟨hpart, hrest⟩⟩⟩

theorem fill_holds (hP : Inherited T P) {n : Node} {f : Frame} (hn : P n) (hf : f.Holds P) :
    (f.fill n).Holds P := by
  cases f with
  | complete node | operators left above => exact hf
  | operand above => exact wrapped_holds hP hn
  | partly kind done todo =>
    cases todo with
    | nil => exact hf
    | cons part rest =>
      cases part with
      | token _ _ | node _ _ | choice _ => exact hf
      | hole field =>
        obtain ⟨hkind, hdone, htodo⟩ := hf
        obtain ⟨hpart, hrest⟩ := List.forall_mem_cons.mp htodo
        exact ⟨hkind, List.forall_mem_cons.mpr ⟨⟨hP.inField _ _ hn, fitting_node hpart.1 hpart.2⟩,
          hdone⟩, hrest⟩

/-- What a stack does before a token keeps the property. -/
theorem resume_holds (hP : Inherited T P) {t : Token} {n : Node} {stack : Stack} (hn : P n)
    (hs : ∀ f ∈ stack, f.Holds P) :
    (∀ m, resume t n stack = .done m → P m) ∧
      (∀ next, T t → resume t n stack = .shift next → ∀ f ∈ next, f.Holds P) := by
  induction stack generalizing n with
  | nil =>
    refine ⟨fun m hm => ?_, fun _ _ hs => by cases hs⟩
    cases hm
    exact hn
  | cons f rest ih =>
    obtain ⟨hf, hrest⟩ := List.forall_mem_cons.mp hs
    obtain ⟨hcomplete, hshift⟩ := before_holds hP (t := t) (fill_holds hP hn hf)
    unfold resume
    cases hb : (f.fill n).before t with
    | shift frames =>
      refine ⟨fun _ hm => (by cases hm), fun _ ht hs => ?_⟩
      cases hs
      exact List.forall_mem_append.mpr ⟨hshift frames ht hb, hrest⟩
    | complete node => exact ih (hcomplete node hb) hrest
    | stuck request => exact ⟨fun _ hm => (by cases hm), fun _ _ hs => by cases hs⟩

theorem feed_holds (hP : Inherited T P) {t : Token} {stack : Stack}
    (hs : ∀ f ∈ stack, f.Holds P) :
    (∀ m, feed t stack = .done m → P m) ∧
      (∀ next, T t → feed t stack = .shift next → ∀ f ∈ next, f.Holds P) := by
  cases stack with
  | nil => exact ⟨fun _ hm => (by cases hm), fun _ _ hs => by cases hs⟩
  | cons f rest =>
    obtain ⟨hf, hrest⟩ := List.forall_mem_cons.mp hs
    obtain ⟨hcomplete, hshift⟩ := before_holds hP (t := t) hf
    simp only [feed]
    cases hb : f.before t with
    | shift frames =>
      refine ⟨fun _ hm => (by cases hm), fun _ ht hs => ?_⟩
      cases hs
      exact List.forall_mem_append.mpr ⟨hshift frames ht hb, hrest⟩
    | complete node => exact resume_holds hP (hcomplete node hb) hrest
    | stuck request => exact ⟨fun _ hm => (by cases hm), fun _ _ hs => by cases hs⟩

/-- **A property that goes from children to parents holds of the tree that is built.** -/
theorem drive_holds (hP : Inherited T P) {s : Stream} {stack : Stack} {ahead : List Token}
    {n : Node} (hs : ∀ f ∈ stack, f.Holds P) (hT : ∀ t ∈ ahead, T t)
    (h : (drive s stack ahead).result = .ok n) : P n := by
  induction ahead generalizing s stack with
  | nil =>
    obtain ⟨hdone, -⟩ := feed_holds hP (t := .eof s.stop) hs
    unfold drive at h
    cases hf : feed (.eof s.stop) stack with
    | done node =>
      simp only [hf] at h
      obtain rfl := Except.ok.inj h
      exact hdone node hf
    | stuck request pending => simp [hf] at h
    | shift pending => simp [hf] at h
  | cons t rest ih =>
    obtain ⟨hdone, hshift⟩ := feed_holds hP (t := t) hs
    unfold drive at h
    cases hf : feed t stack with
    | done node =>
      simp only [hf] at h
      obtain rfl := Except.ok.inj h
      exact hdone node hf
    | stuck request pending => simp [hf] at h
    | shift next =>
      simp only [hf] at h
      exact ih (hshift next (hT t (by simp)) hf) (fun u hu => hT u (by simp [hu])) h

theorem sourceFile_holds : sourceFile.Holds P := by
  simp [sourceFile, Frame.Holds, builtKinds, Part.Legible]

end

/-! ### Trees in order -/

end Grammar

namespace Node

mutual

/-- Neither an error nor a placeholder, and none below. -/
def Clean : Node → Prop
  | mk head children => head.missing = false ∧ head.error = false ∧ AllClean children

def AllClean : List Node → Prop
  | [] => True
  | n :: rest => n.Clean ∧ AllClean rest

end

theorem allClean_iff {ns : List Node} : AllClean ns ↔ ∀ n ∈ ns, n.Clean := by
  induction ns with
  | nil => simp [AllClean]
  | cons n ns ih => simp [AllClean, ih]

theorem clean_assemble {kind : String} {pos : Position} {cs : List Node} :
    (assemble kind pos cs).Clean ↔ kind ≠ errorKind ∧ ∀ c ∈ cs, c.Clean := by
  simp [assemble, Clean, allClean_iff]

/-- Nothing is found wrong exactly with trees in order. -/
theorem firstDefect?_eq_none_iff {source : ByteArray} {pending : List Node} :
    firstDefect? source pending = none ↔ ∀ n ∈ pending, n.Clean := by
  fun_induction firstDefect? source pending with
  | case1 => simp
  | case2 head children rest d hd =>
    simp only [reduceCtorEq, false_iff]
    intro hall
    obtain ⟨hmissing, herror, -⟩ := hall (mk head children) (by simp)
    simp [defect?, hmissing, herror] at hd
  | case3 head children rest hd ih =>
    have hhead : head.missing = false ∧ head.error = false := by
      unfold defect? at hd
      split at hd
      · cases hd
      · split at hd
        · cases hd
        · simp_all
    rw [ih, List.forall_mem_append, List.forall_mem_cons, Clean, allClean_iff]
    simp [hhead]

theorem check_eq_ok_iff {n : Node} {source : ByteArray} : n.check source = .ok () ↔ n.Clean := by
  have hiff : firstDefect? source [n] = none ↔ n.Clean := by simp [firstDefect?_eq_none_iff]
  rw [← hiff]
  unfold check
  split <;> simp_all

end Node

namespace Grammar

theorem tag_ne_errorKind {k : Kind} (h : k ≠ .unknown) : k.tag ≠ Node.errorKind := by
  cases k with
  | unknown => exact absurd rfl h
  | eof | number | string | identifier => decide
  | punct p => cases p <;> decide
  | keyword k => cases k <;> decide

theorem inherited_clean : Inherited (·.kind ≠ .unknown) Node.Clean where
  leaf t ht := by simpa [Node.leaf, Node.Clean, Node.AllClean] using tag_ne_errorKind ht
  inField n field h := by
    obtain ⟨head, children⟩ := n
    exact h
  child n h := by
    obtain ⟨head, children⟩ := n
    exact Node.allClean_iff.mp h.2.2
  assemble kind pos cs hkind hcs _ := by
    refine Node.clean_assemble.mpr ⟨?_, hcs⟩
    rintro rfl
    exact absurd hkind (by decide)

/-- A tree built from known tokens is in order. -/
theorem clean_of_drive {s : Stream} {ahead : List Token} {root : Node}
    (hT : ∀ t ∈ ahead, t.kind ≠ .unknown) (h : (drive s [sourceFile] ahead).result = .ok root) :
    root.Clean :=
  drive_holds inherited_clean (by simpa using sourceFile_holds) hT h

/-! ### Trees that can be read -/

end Grammar

namespace Node

mutual

/-- Every node whose text is looked at is a token, and every function that is called is a name. -/
def Legible : Node → Prop
  | mk head children =>
    (head.kind = "number_literal" ∨ head.kind = "string_literal" → (mk head children).IsToken) ∧
      (∀ c ∈ children, Grammar.Fitting head.kind c) ∧ AllLegible children

def AllLegible : List Node → Prop
  | [] => True
  | n :: rest => n.Legible ∧ AllLegible rest

end

theorem allLegible_iff {ns : List Node} : AllLegible ns ↔ ∀ n ∈ ns, n.Legible := by
  induction ns with
  | nil => simp [AllLegible]
  | cons n ns ih => simp [AllLegible, ih]

end Node

namespace Grammar

theorem inherited_legible : Inherited (fun _ => True) Node.Legible where
  leaf t _ := ⟨fun _ => Node.isToken_leaf t, by simp, trivial⟩
  inField n field h := by
    obtain ⟨head, children⟩ := n
    refine ⟨fun hk => ?_, h.2⟩
    obtain ⟨t, role, ht⟩ := h.1 hk
    exact ⟨t, field, by rw [ht]; rfl⟩
  child n h := by
    obtain ⟨head, children⟩ := n
    exact Node.allLegible_iff.mp h.2.2
  assemble kind pos cs hkind hcs hfit := by
    refine ⟨fun hk => ?_, hfit, Node.allLegible_iff.mpr hcs⟩
    rcases hk with rfl | rfl <;> exact absurd hkind (by decide)

/-- A tree that is built can be read. -/
theorem legible_of_drive {s : Stream} {ahead : List Token} {root : Node}
    (h : (drive s [sourceFile] ahead).result = .ok root) : root.Legible :=
  drive_holds inherited_legible (by simpa using sourceFile_holds) (fun _ _ => trivial) h

end Grammar
end BlockC
