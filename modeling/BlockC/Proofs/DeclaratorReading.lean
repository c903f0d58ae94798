import BlockC.Code.Declarator
import BlockC.Proofs.DeclaratorSyntax
import BlockC.Proofs.Scoping

/-! # Declarators mean what they declare

What is written for a type and a name is read by the rules of C as just one declaration, that of the
name with the type (`declarators_read_back`).

Text is laid around the name from the inside out.  At every moment it spells a declarator
(`Spells`), which declares the name under the type of what is still to come.
-/
namespace BlockC

/-! ### Types in C -/

/-- The type that a qualifier makes of another one. -/
def Qualifier.inC : Qualifier → C.Ty → C.Ty
  | .pointer, ty | .slice, ty => .pointer ty
  | .array size, ty => .array size.toNat ty

mutual

/-- What a type is in C.  A signature is a pointer to a function without names of parameters. -/
def Typing.inC (t : Table) : Typing → C.Ty
  | .ref symbol qualifiers =>
    qualifiers.foldr Qualifier.inC (.named ((t.get? symbol).elim "" (·.name)))
  | .signature params returns variadic =>
    .pointer (.function (Typing.allInC t params) variadic (returns.inC t))

/-- What types are in C, with empty names. -/
def Typing.allInC (t : Table) : List Typing → List (String × C.Ty)
  | [] => []
  | typing :: rest => ("", typing.inC t) :: Typing.allInC t rest

end

/-- The handle refers to a symbol that is named by an identifier. -/
def Table.NamesWord (t : Table) (id : SymbolId) : Prop :=
  ∃ s, t.get? id = some s ∧ Lexical.IsWord s.name.toList

namespace Code

/-! ### Spelled declarators -/

/-- The text is that of a plain declarator, and starts with a star just if this does. -/
structure Spells (text : List Char) (d : C.Declarator) : Prop where
  tokens : C.tokens text = d.tokens
  plain : d.Plain
  star : text.head? = some '*' ↔ d.IsPointer

/-- The text is that of a plain suffix. -/
structure SpellsSuffix (text : List Char) (s : C.Suffix) : Prop where
  tokens : C.tokens text = s.tokens
  plain : s.Plain
  start : ∃ c rest, text = c :: rest ∧ (c = '[' ∨ c = '(')

theorem spells_nil : Spells [] (.unnamed []) := by
  refine ⟨rfl, ⟨trivial, by simp⟩, ?_⟩
  simp [C.Declarator.IsPointer]

theorem spells_word {name : String} (h : Lexical.IsWord name.toList) :
    Spells name.toList (.named name []) := by
  refine ⟨?_, trivial, ?_⟩
  · rw [C.tokens_word h, String.ofList_toList]
    rfl
  · obtain ⟨c, rest, hname, hc, -⟩ := h
    have hne : c ≠ '*' := by
      rintro rfl
      exact absurd hc (by decide)
    simp [hname, hne, C.Declarator.IsPointer]

section
variable {text behind : List Char} {d : C.Declarator} {s : C.Suffix}

theorem Spells.pointer (h : Spells text d) : Spells ('*' :: text) (.pointer d) := by
  refine ⟨?_, h.plain, ?_⟩
  · rw [C.tokens_cons text (by decide), h.tokens]
    rfl
  · simp [C.Declarator.IsPointer]

theorem SpellsSuffix.tokens_append (h : SpellsSuffix behind s) (text : List Char) :
    C.tokens (text ++ behind) = C.tokens text ++ s.tokens := by
  obtain ⟨c, rest, rfl, hc⟩ := h.start
  have halone : C.Alone c := by
    rcases hc with rfl | rfl <;> decide
  rw [← h.tokens, C.tokens_append_cons text rest halone, C.tokens_cons rest halone]

/-- A suffix stands right behind what starts with no star. -/
theorem Spells.suffixed (h : Spells text d) (hs : SpellsSuffix behind s) (hstar : ¬d.IsPointer)
    (hstart : s.IsArray ∨ d ≠ .unnamed []) : Spells (text ++ behind) (d.suffixed s) := by
  refine ⟨?_, h.plain.suffixed hs.plain hstart, ?_⟩
  · rw [hs.tokens_append, h.tokens, C.Declarator.tokens_suffixed hstar]
  · obtain ⟨c, rest, rfl, hc⟩ := hs.start
    have hne : c ≠ '*' := by
      rcases hc with rfl | rfl <;> decide
    have hhead : text.head? ≠ some '*' := fun heq => hstar (h.star.mp heq)
    refine iff_of_false ?_ C.Declarator.not_isPointer_suffixed
    cases text with
    | nil => simpa using hne
    | cons e text => simpa using hhead

/-- A suffix stands behind the parentheses around what starts with a star. -/
theorem Spells.grouped (h : Spells text d) (hs : SpellsSuffix behind s) (hstar : d.IsPointer) :
    Spells ('(' :: text ++ ')' :: behind) (d.suffixed s) := by
  have hne : d ≠ .unnamed [] := by
    obtain ⟨inner, rfl⟩ := hstar
    simp
  refine ⟨?_, h.plain.suffixed hs.plain (.inr hne), ?_⟩
  · rw [List.cons_append, C.tokens_cons _ (by decide), C.tokens_append_cons _ _ (by decide),
      h.tokens, hs.tokens, C.Declarator.tokens_suffixed_of_isPointer hstar]
    rfl
  · exact iff_of_false (by simp) C.Declarator.not_isPointer_suffixed

end

theorem spellsSuffix_array (size : Nat) :
    SpellsSuffix ("[".toList ++ (Numeral.decimal size).toList ++ "]".toList) (.array size) := by
  refine ⟨?_, trivial, '[', (Numeral.decimal size).toList ++ [']'], rfl, .inl rfl⟩
  have htext : "[".toList ++ (Numeral.decimal size).toList ++ "]".toList =
      '[' :: ((Numeral.decimal size).toList ++ [']']) := rfl
  rw [htext, C.tokens_cons _ (by decide), C.tokens_append_cons _ _ (by decide), C.tokens_decimal]
  rfl

/-- A qualifier is laid around what is declared: it is declared under the type that the qualifier
makes. -/
theorem Spells.qualify {text : List Char} {d : C.Declarator} (h : Spells text d) (q : Qualifier) :
    ∃ e, Spells (qualify text q) e ∧ ∀ ty, e.declares ty = d.declares (q.inC ty) := by
  cases q with
  | pointer => exact ⟨.pointer d, h.pointer, fun _ => rfl⟩
  | slice => exact ⟨.pointer d, h.pointer, fun _ => rfl⟩
  | array size =>
    have harray := spellsSuffix_array size.toNat
    refine ⟨d.suffixed (.array size.toNat), ?_, C.Declarator.declares_suffixed⟩
    unfold Code.qualify
    dsimp only
    split
    · rename_i rest
      exact h.grouped harray (h.star.mp rfl)
    · rename_i hstar
      refine h.suffixed harray (fun hpointer => ?_) (.inl ⟨_, rfl⟩)
      obtain ⟨rest, rfl⟩ := List.head?_eq_some_iff.mp (h.star.mpr hpointer)
      exact hstar rest rfl

theorem Spells.qualifiers {text : List Char} {d : C.Declarator} (h : Spells text d)
    (qualifiers : List Qualifier) : ∃ e, Spells (qualifiers.foldl Code.qualify text) e ∧
      ∀ ty, e.declares ty = d.declares (qualifiers.foldr Qualifier.inC ty) := by
  induction qualifiers generalizing text d with
  | nil => exact ⟨d, h, fun _ => rfl⟩
  | cons q qualifiers ih =>
    obtain ⟨e, he, hdeclares⟩ := h.qualify q
    obtain ⟨e', he', hdeclares'⟩ := ih he
    exact ⟨e', he', fun ty => (hdeclares' ty).trans (hdeclares _)⟩

/-! ### Written declarations -/

/-- The text is that of a plain declaration. -/
def Writes (text : String) (d : C.Declaration) : Prop :=
  C.tokens text.toList = d.tokens ∧ d.Plain

/-- Stars may stand before a blank or behind it. -/
theorem tokens_moved_stars (text : List Char) :
    C.tokens (text.takeWhile (· == '*') ++ ' ' :: text.dropWhile (· == '*')) = C.tokens text := by
  induction text with
  | nil => rfl
  | cons c text ih =>
    by_cases hc : c = '*'
    · subst hc
      have hcons := C.tokens_cons (c := '*') text (by decide)
      rw [List.takeWhile_cons_of_pos (by simp), List.dropWhile_cons_of_pos (by simp),
        List.cons_append, C.tokens_cons _ (by decide), ih, hcons]
    · rw [List.takeWhile_cons_of_neg (by simpa using hc),
        List.dropWhile_cons_of_neg (by simpa using hc), List.nil_append,
        C.tokens_cons _ (by decide)]
      rfl

theorem tokens_afterBase {base : String} (hbase : Lexical.IsWord base.toList) (text : List Char) :
    C.tokens (afterBase base text).toList = .identifier base :: C.tokens text := by
  -- Behind the base is a star or a blank, so the base is a token of its own.
  have hsplit : ∃ c rest, C.Alone c ∧
      text.takeWhile (· == '*') ++ ' ' :: text.dropWhile (· == '*') = c :: rest := by
    cases hstars : text.takeWhile (· == '*') with
    | nil => exact ⟨' ', _, by decide, rfl⟩
    | cons c stars =>
      have hc : c ∈ text.takeWhile (· == '*') := by simp [hstars]
      obtain rfl : c = '*' := by simpa using List.all_eq_true.mp List.all_takeWhile c hc
      exact ⟨'*', _, by decide, rfl⟩
  obtain ⟨c, rest, hc, hrest⟩ := hsplit
  rw [afterBase, String.toList_ofList, C.tokens_trimEnd, List.append_assoc, hrest,
    C.tokens_append_cons _ _ hc, C.tokens_word hbase, ← C.tokens_cons rest hc, ← hrest,
    tokens_moved_stars, String.ofList_toList]
  rfl

/-- The tokens of a list are those of its items, with commas between. -/
theorem tokens_joined : (texts : List String) →
    C.tokens (Text.joined "," texts).toList =
      C.separated (texts.map fun text => C.tokens text.toList)
  | [] => rfl
  | [text] => by simp [Text.joined, C.separated]
  | text :: next :: rest => by
    have htext : (Text.joined "," (text :: next :: rest)).toList =
        text.toList ++ ',' :: (Text.joined "," (next :: rest)).toList := by
      simp [Text.joined]
    rw [htext, C.tokens_append_cons _ _ (by decide), tokens_joined (next :: rest)]
    rfl

/-- A parameter list is a suffix, with the declarations of its parameters. -/
theorem spellsSuffix_parameterList {texts : List String} {params : List C.Declaration}
    (h : List.Forall₂ Writes texts params) (variadic : Bool) :
    SpellsSuffix (parameterList (if variadic then texts ++ ["..."] else texts)).toList
      (.function params variadic) := by
  have hitems : texts.map (fun text => C.tokens text.toList) = C.Declaration.allTokens params ∧
      C.Declaration.AllPlain params := by
    induction h with
    | nil => exact ⟨rfl, trivial⟩
    | cons hfirst _ ih =>
      exact ⟨by rw [List.map_cons, hfirst.1, ih.1, C.Declaration.allTokens], hfirst.2, ih.2⟩
  have htexts : (if variadic then texts ++ ["..."] else texts).map
      (fun text => C.tokens text.toList) = C.items params variadic := by
    have hellipsis : C.tokens ['.', '.', '.'] = [.ellipsis] := by decide
    rw [C.items, ← hitems.1]
    cases variadic <;> simp [C.further, hellipsis]
  have htext : ∀ list, (parameterList list).toList =
      '(' :: ((Text.joined "," list).toList ++ [')']) := by
    simp [parameterList]
  refine ⟨?_, hitems.2, '(', _, htext _, .inr rfl⟩
  rw [htext, C.tokens_cons _ (by decide), C.tokens_append_cons _ _ (by decide), tokens_joined,
    htexts]
  rfl

variable {t : Table}

mutual

/-- **What is written for a type around a declarator declares the same name, with this type
inside.** -/
theorem declarator_writes : (typing : Typing) → (∀ id ∈ typing.refs, t.NamesWord id) →
    ∀ (name : String) {d : C.Declarator}, Spells name.toList d →
      ∃ text p, declarator t typing name = .ok text ∧ Writes text p ∧
        p.declared = d.declares (typing.inC t)
  | .ref symbol qualifiers, hrefs, name, d, hname => by
    obtain ⟨s, hs, hword⟩ := hrefs symbol (by simp [Typing.refs])
    obtain ⟨e, he, hdeclares⟩ := hname.qualifiers qualifiers
    refine ⟨afterBase s.name (qualifiers.foldl qualify name.toList), .mk s.name e, ?_,
      ⟨?_, he.plain⟩, ?_⟩
    · simp [declarator, Table.get, hs, bind, Except.bind, pure, Except.pure]
    · rw [tokens_afterBase hword, he.tokens]
      rfl
    · rw [C.Declaration.declared, hdeclares, Typing.inC, hs]
      rfl
  | .signature params returns variadic, hrefs, name, d, hname => by
    have hparams : ∀ id ∈ Typing.allRefs params, t.NamesWord id :=
      fun id hid => hrefs id (List.mem_append_left _ hid)
    have hreturns : ∀ id ∈ returns.refs, t.NamesWord id :=
      fun id hid => hrefs id (List.mem_append_right _ hid)
    obtain ⟨texts, ps, htexts, hwrites, hdeclared⟩ := abstractDeclarators_write params hparams
    have hspells := hname.pointer.grouped (spellsSuffix_parameterList hwrites variadic) ⟨d, rfl⟩
    obtain ⟨text, p, htext, hp, hptr⟩ := declarator_writes returns hreturns
      ("(*" ++ name ++ ")" ++ parameterList (if variadic then texts ++ ["..."] else texts))
      (by simpa using hspells)
    refine ⟨text, p, ?_, hp, ?_⟩
    · rw [declarator, htexts]
      exact htext
    · rw [hptr, C.Declarator.declares_suffixed, C.Declarator.declares, C.Suffix.apply, hdeclared,
        Typing.inC]

/-- What is written for types alone declares them without names. -/
theorem abstractDeclarators_write : (typings : List Typing) →
    (∀ id ∈ Typing.allRefs typings, t.NamesWord id) →
    ∃ texts ps, abstractDeclarators t typings = .ok texts ∧ List.Forall₂ Writes texts ps ∧
      C.Declaration.allDeclared ps = Typing.allInC t typings
  | [], _ => ⟨[], [], rfl, .nil, rfl⟩
  | typing :: rest, hrefs => by
    have hfirst : ∀ id ∈ typing.refs, t.NamesWord id :=
      fun id hid => hrefs id (List.mem_append_left _ hid)
    have hrest : ∀ id ∈ Typing.allRefs rest, t.NamesWord id :=
      fun id hid => hrefs id (List.mem_append_right _ hid)
    obtain ⟨text, p, htext, hp, hdeclared⟩ := declarator_writes typing hfirst "" spells_nil
    obtain ⟨texts, ps, htexts, hps, hdeclareds⟩ := abstractDeclarators_write rest hrest
    refine ⟨text :: texts, p :: ps, ?_, .cons hp hps, ?_⟩
    · simp [abstractDeclarators, htext, htexts, bind, Except.bind, pure, Except.pure]
    · rw [C.Declaration.allDeclared, hdeclared, hdeclareds]
      rfl

end

/-- A name that is an identifier or empty is a declarator. -/
theorem exists_spells {name : String} (h : Lexical.IsWord name.toList ∨ name = "") :
    ∃ d, Spells name.toList d ∧ ∀ ty, d.declares ty = (name, ty) := by
  rcases h with hword | rfl
  · exact ⟨_, spells_word hword, fun _ => rfl⟩
  · exact ⟨_, spells_nil, fun _ => rfl⟩

theorem Writes.readsAs {text name : String} {ty : C.Ty} {p : C.Declaration} (h : Writes text p)
    (hdeclared : p.declared = (name, ty)) : C.ReadsAs text name ty :=
  ⟨p, h.1.symm, fun _ hd => C.Declaration.eq_of_tokens_eq h.2 (hd.trans h.1), hdeclared⟩

/-- What is written for parameters with their names declares these. -/
theorem declarators_write (params : List (Typing × String))
    (h : ∀ p ∈ params, (∀ id ∈ p.1.refs, t.NamesWord id) ∧
      (Lexical.IsWord p.2.toList ∨ p.2 = "")) :
    ∃ texts ps, params.mapM (fun p => declarator t p.1 p.2) = .ok texts ∧
      List.Forall₂ Writes texts ps ∧
      C.Declaration.allDeclared ps = params.map fun p => (p.2, p.1.inC t) := by
  induction params with
  | nil => exact ⟨[], [], rfl, .nil, rfl⟩
  | cons p params ih =>
    obtain ⟨⟨hrefs, hname⟩, hrest⟩ := List.forall_mem_cons.mp h
    obtain ⟨d, hd, hdeclares⟩ := exists_spells hname
    obtain ⟨text, q, htext, hq, hdeclared⟩ := declarator_writes p.1 hrefs p.2 hd
    obtain ⟨texts, qs, htexts, hqs, hdeclareds⟩ := ih hrest
    refine ⟨text :: texts, q :: qs, ?_, .cons hq hqs, ?_⟩
    · simp [htext, htexts, bind, Except.bind, pure, Except.pure]
    · rw [C.Declaration.allDeclared, hdeclared, hdeclares, hdeclareds]
      rfl

end Code

open Code

/-- **Declarators mean the declared type in C.**  Over symbols that are named by identifiers, what
is written for any type and any identifier or empty name can be read in one way, as the name with
this type.  The head of a function can be read in one way, as the function with these parameters
that returns the type. -/
theorem declarators_read_back (t : Table) :
    (∀ typing name, (∀ id ∈ typing.refs, t.NamesWord id) →
      (Lexical.IsWord name.toList ∨ name = "") →
      ∃ text, declarator t typing name = .ok text ∧ C.ReadsAs text name (typing.inC t)) ∧
    (∀ returns name (params : List (Typing × String)) (variadic : Bool),
      (∀ id ∈ returns.refs, t.NamesWord id) → Lexical.IsWord name.toList →
      (∀ p ∈ params, (∀ id ∈ p.1.refs, t.NamesWord id) ∧
        (Lexical.IsWord p.2.toList ∨ p.2 = "")) →
      ∃ texts text, params.mapM (fun p => declarator t p.1 p.2) = .ok texts ∧
        functionHead t returns name (if variadic then texts ++ ["..."] else texts) = .ok text ∧
        C.ReadsAs text name
          (.function (params.map fun p => (p.2, p.1.inC t)) variadic (returns.inC t))) := by
  constructor
  · intro typing name hrefs hname
    obtain ⟨d, hd, hdeclares⟩ := exists_spells hname
    obtain ⟨text, p, htext, hp, hdeclared⟩ := declarator_writes typing hrefs name hd
    exact ⟨text, htext, hp.readsAs (hdeclared.trans (hdeclares _))⟩
  · intro returns name params variadic hreturns hname hparams
    obtain ⟨texts, ps, htexts, hps, hdeclareds⟩ := declarators_write params hparams
    have hspells := (spells_word hname).suffixed (spellsSuffix_parameterList hps variadic)
      (by simp [C.Declarator.IsPointer]) (.inr (by simp))
    obtain ⟨text, p, htext, hp, hdeclared⟩ := declarator_writes returns hreturns
      (name ++ parameterList (if variadic then texts ++ ["..."] else texts))
      (by simpa using hspells)
    refine ⟨texts, text, htexts, htext, hp.readsAs ?_⟩
    rw [hdeclared, C.Declarator.declares_suffixed, ← hdeclareds]
    rfl

/-- A function type that takes an array of pointers and returns a pointer to an array, around a name
and around the head of a function that returns it. -/
theorem nested_declarators_read_back :
    ∃ typing, typing = .signature [.ref (.builtin 1) [.array 2, .pointer]]
        (.ref (.builtin 5) [.pointer, .array 4]) true ∧
      declarator .empty typing "f" = .ok "i32 (*(*f)(i8* [2],...))[4]" ∧
      C.ReadsAs "i32 (*(*f)(i8* [2],...))[4]" "f" (typing.inC .empty) ∧
      functionHead .empty typing "g" ["i8* p", "..."] =
        .ok "i32 (*(*g(i8* p,...))(i8* [2],...))[4]" ∧
      C.ReadsAs "i32 (*(*g(i8* p,...))(i8* [2],...))[4]" "g"
        (.function [("p", .pointer (.named "i8"))] true (typing.inC .empty)) := by
  obtain ⟨hdeclarator, hhead⟩ := declarators_read_back .empty
  have hwords : ∀ id ∈ [SymbolId.builtin 1, .builtin 5], Table.empty.NamesWord id := by
    intro id hid
    rcases List.mem_pair.mp hid with rfl | rfl
    · exact ⟨_, rfl, Lexical.isWord_of_all (by decide) (by decide)⟩
    · exact ⟨_, rfl, Lexical.isWord_of_all (by decide) (by decide)⟩
  obtain ⟨text, htext, hreads⟩ := hdeclarator (.signature [.ref (.builtin 1) [.array 2, .pointer]]
    (.ref (.builtin 5) [.pointer, .array 4]) true) "f" hwords
    (.inl (Lexical.isWord_of_all (by decide) (by decide)))
  obtain ⟨texts, head, htexts, hheadText, hheadReads⟩ := hhead
    (.signature [.ref (.builtin 1) [.array 2, .pointer]]
      (.ref (.builtin 5) [.pointer, .array 4]) true)
    "g" [(.ref (.builtin 1) [.slice], "p")] true hwords
    (Lexical.isWord_of_all (by decide) (by decide)) (List.forall_mem_singleton.mpr
      ⟨fun id hid => hwords id (List.mem_cons.mpr (.inl (List.mem_singleton.mp hid))),
        .inl (Lexical.isWord_of_all (by decide) (by decide))⟩)
  obtain rfl := Except.ok.inj htext
  obtain rfl := Except.ok.inj htexts
  obtain rfl := Except.ok.inj hheadText
  exact ⟨_, rfl, rfl, hreads, rfl, hheadReads⟩

end BlockC
