import BlockC.Proofs.Numerals
import BlockC.Proofs.Scanning
import Mathlib.Data.List.SplitBy

/-! # How C reads a declaration

The declarators of C as trees: suffixes, which are sizes and parameter lists, bind tighter than the
stars before, and parentheses group.  A tree has its tokens, and declares a name with a type from
the inside out.  C text is cut into tokens without knowledge of trees.

Not every row of tokens is that of just one tree: in `t (x)`, the name `x` may be what is declared,
in parentheses, or the type of a parameter.  Trees in which a star stands behind every parenthesis
that groups, and a parameter list behind something, are plain.  Each is the only tree of its tokens,
plain or not (`Declaration.eq_of_tokens_eq`).
-/
namespace BlockC
namespace C

/-! ### Trees -/

/-- A type of C. -/
inductive Ty where
  | named (base : String)
  | pointer (pointee : Ty)
  | array (size : Nat) (element : Ty)
  /-- The parameters come with their names, which may be empty. -/
  | function (params : List (String × Ty)) (variadic : Bool) (returns : Ty)

mutual

/-- What declares a name, which may be left out. -/
inductive Declarator where
  | pointer (inner : Declarator)
  | named (name : String) (suffixes : List Suffix)
  | unnamed (suffixes : List Suffix)
  | group (inner : Declarator) (suffixes : List Suffix)

/-- What stands behind a name or a group. -/
inductive Suffix where
  | array (size : Nat)
  | function (params : List Declaration) (variadic : Bool)

/-- A declarator behind the name of its base type. -/
inductive Declaration where
  | mk (base : String) (declarator : Declarator)

end

mutual

/-- The name that is declared under a type, and the type that it gets. -/
def Declarator.declares : Declarator → Ty → String × Ty
  | .pointer inner, ty => inner.declares (.pointer ty)
  | .named name suffixes, ty => (name, Suffix.applyAll suffixes ty)
  | .unnamed suffixes, ty => ("", Suffix.applyAll suffixes ty)
  | .group inner suffixes, ty => inner.declares (Suffix.applyAll suffixes ty)

/-- The type of what has the suffix, if with the suffix it is of the given type. -/
def Suffix.apply : Suffix → Ty → Ty
  | .array size, ty => .array size ty
  | .function params variadic, ty => .function (Declaration.allDeclared params) variadic ty

/-- The type of what has the suffixes, the first of which is the closest. -/
def Suffix.applyAll : List Suffix → Ty → Ty
  | [], ty => ty
  | suffix :: rest, ty => suffix.apply (Suffix.applyAll rest ty)

/-- The name and type of what is declared. -/
def Declaration.declared : Declaration → String × Ty
  | .mk base declarator => declarator.declares (.named base)

/-- The names and types of what is declared. -/
def Declaration.allDeclared : List Declaration → List (String × Ty)
  | [] => []
  | d :: rest => d.declared :: Declaration.allDeclared rest

end

/-! ### Tokens -/

/-- A token of C, as far as declarators go. -/
inductive Token where
  | identifier (name : String)
  | number (value : Nat)
  | star | leftParen | rightParen | leftBracket | rightBracket | comma | ellipsis
  | other (run : List Char)
deriving DecidableEq

/-- Commas between the items of a list. -/
def separated : List (List Token) → List Token
  | [] => []
  | item :: rest => item ++ rest.flatMap (.comma :: ·)

/-- The last item of a parameter list that takes further arguments. -/
def further (variadic : Bool) : List (List Token) :=
  if variadic then [[.ellipsis]] else []

mutual

/-- The tokens of a declarator. -/
def Declarator.tokens : Declarator → List Token
  | .pointer inner => .star :: inner.tokens
  | .named name suffixes => .identifier name :: Suffix.allTokens suffixes
  | .unnamed suffixes => Suffix.allTokens suffixes
  | .group inner suffixes =>
    .leftParen :: (inner.tokens ++ .rightParen :: Suffix.allTokens suffixes)

/-- The tokens of a suffix. -/
def Suffix.tokens : Suffix → List Token
  | .array size => [.leftBracket, .number size, .rightBracket]
  | .function params variadic =>
    .leftParen :: (separated (Declaration.allTokens params ++ further variadic) ++ [.rightParen])

/-- The tokens of suffixes. -/
def Suffix.allTokens : List Suffix → List Token
  | [] => []
  | suffix :: rest => suffix.tokens ++ Suffix.allTokens rest

/-- The tokens of a declaration. -/
def Declaration.tokens : Declaration → List Token
  | .mk base declarator => .identifier base :: declarator.tokens

/-- The tokens of each declaration. -/
def Declaration.allTokens : List Declaration → List (List Token)
  | [] => []
  | d :: rest => d.tokens :: Declaration.allTokens rest

end

/-! ### Plain trees -/

/-- The declarator starts with a star. -/
def Declarator.IsPointer (d : Declarator) : Prop :=
  ∃ inner, d = .pointer inner

/-- The suffix is a size. -/
def Suffix.IsArray (s : Suffix) : Prop :=
  ∃ size, s = .array size

mutual

/-- Groups start with a star, and no parameter list starts a declarator. -/
def Declarator.Plain : Declarator → Prop
  | .pointer inner => inner.Plain
  | .named _ suffixes => Suffix.AllPlain suffixes
  | .unnamed suffixes => Suffix.AllPlain suffixes ∧ ∀ s ∈ suffixes.head?, s.IsArray
  | .group inner suffixes => inner.IsPointer ∧ inner.Plain ∧ Suffix.AllPlain suffixes

/-- The parameters are plain. -/
def Suffix.Plain : Suffix → Prop
  | .array _ => True
  | .function params _ => Declaration.AllPlain params

/-- The suffixes are plain. -/
def Suffix.AllPlain : List Suffix → Prop
  | [] => True
  | suffix :: rest => suffix.Plain ∧ Suffix.AllPlain rest

/-- The declarator is plain. -/
def Declaration.Plain : Declaration → Prop
  | .mk _ declarator => declarator.Plain

/-- The declarations are plain. -/
def Declaration.AllPlain : List Declaration → Prop
  | [] => True
  | d :: rest => d.Plain ∧ Declaration.AllPlain rest

end

/-- Tokens that may stand behind a declarator. -/
def Ends (rest : List Token) : Prop :=
  ∀ token ∈ rest.head?, token = .rightParen ∨ token = .comma

theorem ends_nil : Ends [] := by
  simp [Ends]

theorem ends_rightParen (rest : List Token) : Ends (.rightParen :: rest) := by
  simp [Ends]

/-- Behind a parameter come further ones or the end of the list. -/
theorem ends_further (items : List (List Token)) (rest : List Token) :
    Ends (items.flatMap (.comma :: ·) ++ .rightParen :: rest) := by
  cases items <;> simp [Ends]

/-- A suffix starts with a bracket or a parenthesis. -/
theorem Suffix.tokens_cons (s : Suffix) :
    ∃ token rest, s.tokens = token :: rest ∧ (token = .leftBracket ∨ token = .leftParen) := by
  cases s with
  | array size => exact ⟨_, _, rfl, .inl rfl⟩
  | function params variadic => exact ⟨_, _, rfl, .inr rfl⟩

/-- What starts with a suffix is not behind a declarator. -/
theorem Suffix.not_ends (s : Suffix) (rest : List Token) : ¬Ends (s.tokens ++ rest) := by
  obtain ⟨token, more, htokens, hstart⟩ := s.tokens_cons
  intro hends
  rcases hends token (by simp [htokens]) with rfl | rfl <;> simp at hstart

/-- What can stand at the place of suffixes. -/
theorem Suffix.head_allTokens {suffixes : List Suffix} {token : Token} {rest more : List Token}
    (hends : Ends rest) (h : Suffix.allTokens suffixes ++ rest = token :: more) :
    token = .leftBracket ∨ token = .leftParen ∨ token = .rightParen ∨ token = .comma := by
  cases suffixes with
  | nil =>
    obtain rfl : rest = token :: more := h
    exact .inr (.inr (hends token rfl))
  | cons s suffixes =>
    obtain ⟨start, _, htokens, hstart⟩ := s.tokens_cons
    rw [Suffix.allTokens, htokens] at h
    obtain rfl := (List.cons.inj h).1
    exact hstart.imp_right .inl

/-- What can stand at the place of suffixes the first of which is no parameter list. -/
theorem Suffix.head_allTokens_ne {suffixes : List Suffix} {token : Token} {rest more : List Token}
    (hends : Ends rest) (harray : ∀ s ∈ suffixes.head?, s.IsArray)
    (h : Suffix.allTokens suffixes ++ rest = token :: more) : token ≠ .leftParen := by
  cases suffixes with
  | nil =>
    obtain rfl : rest = token :: more := h
    rcases hends token rfl with rfl | rfl <;> simp
  | cons s suffixes =>
    obtain ⟨size, rfl⟩ := harray s rfl
    obtain rfl := (List.cons.inj h).1
    simp

/-! ### A plain tree is the only one of its tokens -/

/-- The items of a parameter list. -/
def items (params : List Declaration) (variadic : Bool) : List (List Token) :=
  Declaration.allTokens params ++ further variadic

/-- No item is the end of the list. -/
theorem items_cons {params : List Declaration} {variadic : Bool} {item : List Token}
    {more : List (List Token)} (h : items params variadic = item :: more) :
    ∃ token rest, item = token :: rest ∧ token ≠ .rightParen ∧ token ≠ .star := by
  cases params with
  | nil =>
    cases variadic with
    | false => cases h
    | true =>
      obtain rfl := (List.cons.inj h).1
      exact ⟨_, _, rfl, by simp, by simp⟩
  | cons p params =>
    obtain ⟨base, declarator⟩ := p
    obtain rfl := (List.cons.inj h).1
    exact ⟨_, _, rfl, by simp, by simp⟩

/-- Parameter lists can be compared as if there was one more item before. -/
theorem further_eq_of_separated_eq {params params' : List Declaration} {variadic variadic' : Bool}
    {rest rest' : List Token}
    (h : separated (items params variadic) ++ .rightParen :: rest =
      separated (items params' variadic') ++ .rightParen :: rest') :
    (items params variadic).flatMap (.comma :: ·) ++ .rightParen :: rest =
      (items params' variadic').flatMap (.comma :: ·) ++ .rightParen :: rest' := by
  cases hitems : items params variadic with
  | nil =>
    cases hitems' : items params' variadic' with
    | nil => simpa [hitems, hitems'] using h
    | cons item' more' =>
      obtain ⟨token, _, rfl, hne, -⟩ := items_cons hitems'
      rw [hitems, hitems'] at h
      exact absurd (List.cons.inj h).1.symm hne
  | cons item more =>
    cases hitems' : items params' variadic' with
    | nil =>
      obtain ⟨token, _, rfl, hne, -⟩ := items_cons hitems
      rw [hitems, hitems'] at h
      exact absurd (List.cons.inj h).1 hne
    | cons item' more' => simpa [hitems, hitems', separated] using h

/-- No parameter list starts with a star. -/
theorem head_params {params : List Declaration} {variadic : Bool} {token : Token}
    {rest more : List Token}
    (h : separated (items params variadic) ++ .rightParen :: rest = token :: more) :
    token ≠ .star := by
  cases hitems : items params variadic with
  | nil =>
    rw [hitems] at h
    obtain rfl := (List.cons.inj h).1
    simp
  | cons item more =>
    obtain ⟨start, _, rfl, -, hne⟩ := items_cons hitems
    rw [hitems] at h
    obtain rfl := (List.cons.inj h).1
    exact hne

mutual

/-- A plain declarator is the only one that starts with its tokens and may end behind them. -/
theorem Declarator.unique : (d : Declarator) → d.Plain →
    ∀ {d' : Declarator} {rest rest' : List Token}, Ends rest → Ends rest' →
      d.tokens ++ rest = d'.tokens ++ rest' → d = d' ∧ rest = rest'
  | .pointer inner, hplain, d', rest, rest', hends, hends', h => by
    cases d' with
    | pointer inner' =>
      obtain ⟨rfl, rfl⟩ := Declarator.unique inner hplain hends hends' (List.cons.inj h).2
      exact ⟨rfl, rfl⟩
    | named name' suffixes' => cases h
    | group inner' suffixes' => cases h
    | unnamed suffixes' =>
      have hhead := Suffix.head_allTokens hends' h.symm
      simp at hhead
  | .named name suffixes, hplain, d', rest, rest', hends, hends', h => by
    cases d' with
    | named name' suffixes' =>
      obtain ⟨hname, h⟩ := List.cons.inj h
      obtain ⟨rfl, rfl⟩ := Suffix.unique_all suffixes hplain hends hends' h
      cases hname
      exact ⟨rfl, rfl⟩
    | pointer inner' => cases h
    | group inner' suffixes' => cases h
    | unnamed suffixes' =>
      have hhead := Suffix.head_allTokens hends' h.symm
      simp at hhead
  | .unnamed suffixes, hplain, d', rest, rest', hends, hends', h => by
    cases d' with
    | unnamed suffixes' =>
      obtain ⟨rfl, rfl⟩ := Suffix.unique_all suffixes hplain.1 hends hends' h
      exact ⟨rfl, rfl⟩
    | pointer inner' =>
      have hhead := Suffix.head_allTokens hends h
      simp at hhead
    | named name' suffixes' =>
      have hhead := Suffix.head_allTokens hends h
      simp at hhead
    | group inner' suffixes' =>
      exact absurd rfl (Suffix.head_allTokens_ne hends hplain.2 h)
  | .group inner suffixes, hplain, d', rest, rest', hends, hends', h => by
    cases d' with
    | group inner' suffixes' =>
      have hinner : inner.tokens ++ .rightParen :: (Suffix.allTokens suffixes ++ rest) =
          inner'.tokens ++ .rightParen :: (Suffix.allTokens suffixes' ++ rest') := by
        simpa [Declarator.tokens] using h
      obtain ⟨rfl, hrest⟩ := Declarator.unique inner hplain.2.1 (ends_rightParen _)
        (ends_rightParen _) hinner
      obtain ⟨rfl, rfl⟩ := Suffix.unique_all suffixes hplain.2.2 hends hends'
        (List.cons.inj hrest).2
      exact ⟨rfl, rfl⟩
    | pointer inner' => cases h
    | named name' suffixes' => cases h
    | unnamed suffixes' =>
      -- A parameter list has no star at its start, but the group has.
      obtain ⟨core, rfl⟩ := hplain.1
      cases suffixes' with
      | nil =>
        obtain rfl : _ = rest' := h
        simp [Declarator.tokens, Ends] at hends'
      | cons s' suffixes' =>
        cases s' with
        | array size' => cases h
        | function params' variadic' =>
          have hparams : separated (items params' variadic') ++
              .rightParen :: (Suffix.allTokens suffixes' ++ rest') =
              .star :: (core.tokens ++ .rightParen :: (Suffix.allTokens suffixes ++ rest)) := by
            simpa [Declarator.tokens, Suffix.allTokens, Suffix.tokens, items] using h.symm
          exact absurd rfl (head_params hparams)

/-- A plain suffix is the only one that starts with its tokens. -/
theorem Suffix.unique : (s : Suffix) → s.Plain → ∀ {s' : Suffix} {rest rest' : List Token},
    s.tokens ++ rest = s'.tokens ++ rest' → s = s' ∧ rest = rest'
  | .array size, _, s', rest, rest', h => by
    cases s' with
    | array size' => simpa [Suffix.tokens] using h
    | function params' variadic' => cases h
  | .function params variadic, hplain, s', rest, rest', h => by
    cases s' with
    | array size' => cases h
    | function params' variadic' =>
      have hparams : separated (items params variadic) ++ .rightParen :: rest =
          separated (items params' variadic') ++ .rightParen :: rest' := by
        simpa [Suffix.tokens, items] using h
      obtain ⟨rfl, rfl, rfl⟩ :=
        Declaration.unique_all params hplain (further_eq_of_separated_eq hparams)
      exact ⟨rfl, rfl⟩

/-- Plain suffixes are the only ones that start with their tokens and may end behind them. -/
theorem Suffix.unique_all : (suffixes : List Suffix) → Suffix.AllPlain suffixes →
    ∀ {suffixes' : List Suffix} {rest rest' : List Token}, Ends rest → Ends rest' →
    Suffix.allTokens suffixes ++ rest = Suffix.allTokens suffixes' ++ rest' →
    suffixes = suffixes' ∧ rest = rest'
  | [], _, suffixes', rest, rest', hends, hends', h => by
    cases suffixes' with
    | nil => exact ⟨rfl, h⟩
    | cons s' suffixes' =>
      rw [Suffix.allTokens, List.nil_append, Suffix.allTokens, List.append_assoc] at h
      exact absurd (h ▸ hends) (s'.not_ends _)
  | s :: suffixes, hplain, suffixes', rest, rest', hends, hends', h => by
    cases suffixes' with
    | nil =>
      rw [Suffix.allTokens, Suffix.allTokens, List.nil_append, List.append_assoc] at h
      exact absurd (h ▸ hends') (s.not_ends _)
    | cons s' suffixes' =>
      rw [Suffix.allTokens, Suffix.allTokens, List.append_assoc, List.append_assoc] at h
      obtain ⟨rfl, hrest⟩ := Suffix.unique s hplain.1 h
      obtain ⟨rfl, rfl⟩ := Suffix.unique_all suffixes hplain.2 hends hends' hrest
      exact ⟨rfl, rfl⟩

/-- Plain parameters behind a comma are the only ones of their tokens, up to the end of the list. -/
theorem Declaration.unique_all : (params : List Declaration) → Declaration.AllPlain params →
    ∀ {params' : List Declaration} {variadic variadic' : Bool} {rest rest' : List Token},
    (items params variadic).flatMap (.comma :: ·) ++ .rightParen :: rest =
      (items params' variadic').flatMap (.comma :: ·) ++ .rightParen :: rest' →
    params = params' ∧ variadic = variadic' ∧ rest = rest'
  | [], _, params', variadic, variadic', rest, rest', h => by
    cases params' with
    | nil => cases variadic <;> cases variadic' <;> simp_all [items, Declaration.allTokens, further]
    | cons p' params' =>
      obtain ⟨base', declarator'⟩ := p'
      cases variadic <;> simp [items, Declaration.allTokens, Declaration.tokens, further] at h
  | .mk base declarator :: params, hplain, params', variadic, variadic', rest, rest', h => by
    cases params' with
    | nil =>
      cases variadic' <;> simp [items, Declaration.allTokens, Declaration.tokens, further] at h
    | cons p' params' =>
      obtain ⟨base', declarator'⟩ := p'
      simp only [items, Declaration.allTokens, Declaration.tokens, List.cons_append,
        List.flatMap_cons, List.append_assoc, List.cons.injEq, Token.identifier.injEq,
        true_and] at h
      obtain ⟨rfl, h⟩ := h
      obtain ⟨rfl, hrest⟩ := Declarator.unique declarator hplain.1 (ends_further _ _)
        (ends_further _ _) h
      obtain ⟨rfl, rfl, rfl⟩ := Declaration.unique_all params hplain.2 hrest
      exact ⟨rfl, rfl, rfl⟩

end

/-- **A plain declaration is the only one of its tokens.** -/
theorem Declaration.eq_of_tokens_eq {d d' : Declaration} (hplain : d.Plain)
    (h : d'.tokens = d.tokens) : d' = d := by
  obtain ⟨base, declarator⟩ := d
  obtain ⟨base', declarator'⟩ := d'
  obtain ⟨hbase, htokens⟩ := List.cons.inj h
  cases hbase
  obtain ⟨rfl, -⟩ := Declarator.unique declarator hplain ends_nil ends_nil
    (congrArg (· ++ []) htokens.symm)
  rfl

/-! ### Further suffixes -/

theorem Suffix.allTokens_append (suffixes more : List Suffix) :
    Suffix.allTokens (suffixes ++ more) = Suffix.allTokens suffixes ++ Suffix.allTokens more := by
  induction suffixes with
  | nil => rfl
  | cons s suffixes ih => rw [List.cons_append, Suffix.allTokens, Suffix.allTokens, ih,
      List.append_assoc]

theorem Suffix.applyAll_append (suffixes more : List Suffix) (ty : Ty) :
    Suffix.applyAll (suffixes ++ more) ty = Suffix.applyAll suffixes (Suffix.applyAll more ty) := by
  induction suffixes with
  | nil => rfl
  | cons s suffixes ih => rw [List.cons_append, Suffix.applyAll, Suffix.applyAll, ih]

theorem Suffix.AllPlain.append {suffixes more : List Suffix} (h : Suffix.AllPlain suffixes)
    (hmore : Suffix.AllPlain more) : Suffix.AllPlain (suffixes ++ more) := by
  induction suffixes with
  | nil => exact hmore
  | cons s suffixes ih => exact ⟨h.1, ih h.2⟩

/-- The declarator with a further suffix.  Parentheses keep a star inside. -/
def Declarator.suffixed (s : Suffix) : Declarator → Declarator
  | .pointer inner => .group (.pointer inner) [s]
  | .named name suffixes => .named name (suffixes ++ [s])
  | .unnamed suffixes => .unnamed (suffixes ++ [s])
  | .group inner suffixes => .group inner (suffixes ++ [s])

section
variable {d : Declarator} {s : Suffix}

theorem Declarator.tokens_suffixed_of_isPointer (h : d.IsPointer) :
    (d.suffixed s).tokens = .leftParen :: (d.tokens ++ .rightParen :: s.tokens) := by
  obtain ⟨inner, rfl⟩ := h
  simp [Declarator.suffixed, Declarator.tokens, Suffix.allTokens]

theorem Declarator.tokens_suffixed (h : ¬d.IsPointer) :
    (d.suffixed s).tokens = d.tokens ++ s.tokens := by
  cases d with
  | pointer inner => exact absurd ⟨inner, rfl⟩ h
  | named name suffixes =>
    simp [Declarator.suffixed, Declarator.tokens, Suffix.allTokens_append, Suffix.allTokens]
  | unnamed suffixes =>
    simp [Declarator.suffixed, Declarator.tokens, Suffix.allTokens_append, Suffix.allTokens]
  | group inner suffixes =>
    simp [Declarator.suffixed, Declarator.tokens, Suffix.allTokens_append, Suffix.allTokens]

theorem Declarator.not_isPointer_suffixed : ¬(d.suffixed s).IsPointer := by
  rintro ⟨inner, h⟩
  cases d <;> cases h

/-- With a further suffix, what was declared under the type that the suffix stands for is
declared. -/
theorem Declarator.declares_suffixed (ty : Ty) :
    (d.suffixed s).declares ty = d.declares (s.apply ty) := by
  cases d with
  | pointer inner => rfl
  | named name suffixes =>
    simp [Declarator.suffixed, Declarator.declares, Suffix.applyAll_append, Suffix.applyAll]
  | unnamed suffixes =>
    simp [Declarator.suffixed, Declarator.declares, Suffix.applyAll_append, Suffix.applyAll]
  | group inner suffixes =>
    simp [Declarator.suffixed, Declarator.declares, Suffix.applyAll_append, Suffix.applyAll]

theorem Declarator.Plain.suffixed (h : d.Plain) (hs : s.Plain)
    (hstart : s.IsArray ∨ d ≠ .unnamed []) : (d.suffixed s).Plain := by
  have hsingle : Suffix.AllPlain [s] := ⟨hs, trivial⟩
  cases d with
  | pointer inner => exact ⟨⟨inner, rfl⟩, h, hsingle⟩
  | named name suffixes => exact Suffix.AllPlain.append h hsingle
  | group inner suffixes => exact ⟨h.1, h.2.1, h.2.2.append hsingle⟩
  | unnamed suffixes =>
    refine ⟨h.1.append hsingle, ?_⟩
    cases suffixes with
    | nil =>
      have harray : s.IsArray := hstart.resolve_right fun hne => hne rfl
      simpa using harray
    | cons first suffixes => simpa using h.2 first rfl

end

/-! ### Cutting text into tokens -/

/-- Two characters that belong to one token if they stand side by side. -/
def joins (c d : Char) : Bool :=
  (Lexical.isWordPart c && Lexical.isWordPart d) || (c == '.' && d == '.')

/-- The marks between names and numbers. -/
def marks : List (List Char × Token) :=
  [(['*'], .star), (['('], .leftParen), ([')'], .rightParen), (['['], .leftBracket),
    ([']'], .rightBracket), ([','], .comma), (['.', '.', '.'], .ellipsis)]

/-- The token that characters make up, if they are not blank.  Numbers are decimal and have no
leading zeros. -/
def Token.ofRun (run : List Char) : Option Token :=
  if run.head?.any Lexical.isWordStart && run.all Lexical.isWordPart then
    some (.identifier (String.ofList run))
  else if Nat.toDigits 10 (Nat.ofDigitChars 10 run 0) = run then
    some (.number (Nat.ofDigitChars 10 run 0))
  else if run.all Text.isBlank then none
  else some ((marks.lookup run).getD (.other run))

/-- The tokens of a text. -/
def tokens (text : List Char) : List Token :=
  (text.splitBy joins).filterMap Token.ofRun

/-- A character that is never part of a longer token. -/
def Alone (c : Char) : Prop :=
  Lexical.isWordPart c = false ∧ c ≠ '.'

instance (c : Char) : Decidable (Alone c) :=
  inferInstanceAs (Decidable (_ ∧ _))

theorem tokens_nil : tokens [] = [] := rfl

/-- A character that stands alone separates what is around it. -/
theorem tokens_append_cons (front rest : List Char) {c : Char} (hc : Alone c) :
    tokens (front ++ c :: rest) = tokens front ++ ((Token.ofRun [c]).toList ++ tokens rest) := by
  have hbefore : ∀ d ∈ front.getLast?, joins d c = false := by
    intro d _
    simp [joins, hc.1, hc.2]
  have hbehind : (c :: rest).splitBy joins = [c] :: rest.splitBy joins := by
    refine (List.splitBy_append (l := [c]) (m := rest) ?_).trans rfl
    intro d hd e _
    obtain rfl : c = d := by simpa using hd
    simp [joins, hc.1, hc.2]
  unfold tokens
  rw [List.splitBy_append_cons rest hbefore, hbehind, List.filterMap_append]
  cases h : Token.ofRun [c] <;> simp [h]

theorem tokens_cons (rest : List Char) {c : Char} (hc : Alone c) :
    tokens (c :: rest) = (Token.ofRun [c]).toList ++ tokens rest :=
  tokens_append_cons [] rest hc

theorem isChain_joins {run : List Char} (h : ∀ c ∈ run, Lexical.isWordPart c = true) :
    run.IsChain fun c d => joins c d = true := by
  refine List.Pairwise.isChain (List.pairwise_of_forall_mem_list fun c hc d hd => ?_)
  simp [joins, h c hc, h d hd]

theorem tokens_word {word : List Char} (h : Lexical.IsWord word) :
    tokens word = [.identifier (String.ofList word)] := by
  obtain ⟨c, rest, rfl, hc, hrest⟩ := h
  have hparts : ∀ d ∈ c :: rest, Lexical.isWordPart d = true := by
    refine List.forall_mem_cons.mpr ⟨?_, hrest⟩
    simp [Lexical.isWordPart, hc]
  have hrun : Token.ofRun (c :: rest) = some (.identifier (String.ofList (c :: rest))) := by
    rw [Token.ofRun, if_pos]
    simp [hc, List.all_eq_true.mpr hparts]
  unfold tokens
  rw [List.splitBy_of_isChain (List.cons_ne_nil _ _) (isChain_joins hparts)]
  simp [hrun]

theorem tokens_decimal (n : Nat) : tokens (Numeral.decimal n).toList = [.number n] := by
  have hdigits : ∀ c ∈ (Numeral.decimal n).toList, Lexical.isDigit c = true := by
    intro c hc
    obtain ⟨hlow, hhigh⟩ := Numeral.isDigit_of_mem_decimal hc
    simp [Lexical.isDigit, hlow, hhigh]
  have hparts : ∀ c ∈ (Numeral.decimal n).toList, Lexical.isWordPart c = true := by
    intro c hc
    simp [Lexical.isWordPart, hdigits c hc]
  have hstart : (Numeral.decimal n).toList.head?.any Lexical.isWordStart = false := by
    cases hc : (Numeral.decimal n).toList.head? with
    | none => rfl
    | some c => exact Lexical.not_isWordStart_of_isDigit (hdigits c (List.mem_of_mem_head? hc))
  have hvalue : Nat.ofDigitChars 10 (Numeral.decimal n).toList 0 = n := by
    rw [Numeral.decimal, String.toList_ofList, Nat.ofDigitChars_toDigits (by decide) (by decide)]
  have hrun : Token.ofRun (Numeral.decimal n).toList = some (.number n) := by
    unfold Token.ofRun
    rw [hstart, hvalue, if_neg (by simp), if_pos (by simp [Numeral.decimal])]
  unfold tokens
  rw [List.splitBy_of_isChain (Numeral.decimal_ne_nil n) (isChain_joins hparts)]
  simp [hrun]

/-! ### Blanks -/

theorem alone_of_isBlank {c : Char} (h : Text.isBlank c = true) : Alone c := by
  refine ⟨?_, ?_⟩
  · cases hpart : Lexical.isWordPart c with
    | false => rfl
    | true => simp [Lexical.not_isBlank_of_isWordPart hpart] at h
  · rintro rfl
    exact absurd h (by decide)

theorem ofRun_blank {c : Char} (h : Text.isBlank c = true) : Token.ofRun [c] = none := by
  have hpart := (alone_of_isBlank h).1
  obtain ⟨hstart, hdigit⟩ : Lexical.isWordStart c = false ∧ Lexical.isDigit c = false := by
    simpa [Lexical.isWordPart] using hpart
  have hnumber : Nat.toDigits 10 (Nat.ofDigitChars 10 [c] 0) ≠ [c] := by
    intro heq
    obtain ⟨hlow, hhigh⟩ := Numeral.isDigit_of_mem_decimal
      (n := Nat.ofDigitChars 10 [c] 0) (c := c) (by simp [Numeral.decimal, heq])
    simp [Lexical.isDigit, hlow, hhigh] at hdigit
  simp [Token.ofRun, hstart, hnumber, h]

/-- Blanks at the end of a text are no tokens. -/
theorem tokens_trimEnd (text : List Char) : tokens (Text.trimEnd text) = tokens text := by
  induction text using List.reverseRecOn with
  | nil => rfl
  | append_singleton text c ih =>
    cases hc : Text.isBlank c with
    | false => simp [Text.trimEnd, hc]
    | true =>
      have htrim : Text.trimEnd (text ++ [c]) = Text.trimEnd text := by
        simp [Text.trimEnd, hc]
      rw [htrim, ih, tokens_append_cons text [] (alone_of_isBlank hc), ofRun_blank hc]
      simp [tokens_nil]

/-! ### Reading -/

/-- The text is that of just one declaration, which declares the name with the type. -/
def ReadsAs (text name : String) (ty : Ty) : Prop :=
  ∃ d : Declaration, d.tokens = tokens text.toList ∧
    (∀ d' : Declaration, d'.tokens = tokens text.toList → d' = d) ∧ d.declared = (name, ty)

end C
end BlockC
