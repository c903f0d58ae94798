import BlockC.Proofs.Lexemes
import BlockC.Surface.Reader

/-! # The text under a token

Positions count bytes, and the text of a node is cut out of the source by them.  For the tokens of a
source the two fit together: the bytes between the ends of a token are the characters that the
scanner took for it (`standsIn_of_mem_tokens`).
-/
namespace BlockC

namespace Position

theorem offset_step (p : Position) (c : Char) : (p.step c).offset = p.offset + c.utf8Size := by
  unfold step
  split
  · rename_i hc
    rw [hc]
    rfl
  · rfl

/-- Offsets count the bytes of the characters that are passed. -/
theorem offset_after (p : Position) (cs : List Char) :
    (p.after cs).offset = p.offset + cs.utf8Encode.size := by
  induction cs generalizing p with
  | nil => simp
  | cons c cs ih =>
    rw [after_cons, ih, offset_step, List.utf8Encode_cons, ByteArray.size_append,
      List.utf8Encode_singleton, List.size_toByteArray, String.length_utf8EncodeChar]
    omega

end Position

/-- A span whose places are moved. -/
def Span.moved (g : Position → Position) (s : Span) : Span :=
  ⟨g s.start, g s.stop⟩

namespace Utf8

/-- The bytes between two places of a text are those of the characters between them. -/
theorem slice?_between {source : String} {before front behind : List Char}
    (h : source.toList = before ++ front ++ behind) :
    slice? source.toUTF8 (Position.origin.after before).offset
      (Position.origin.after (before ++ front)).offset = some (String.ofList front).toUTF8 := by
  have hsource : source.toUTF8 = before.utf8Encode ++ (front.utf8Encode ++ behind.utf8Encode) := by
    rw [String.toUTF8_eq_toByteArray, ← String.ofList_toList (s := source), h,
      String.toByteArray_ofList, List.append_assoc, List.utf8Encode_append,
      List.utf8Encode_append]
  have hstart : (Position.origin.after before).offset = before.utf8Encode.size := by
    rw [Position.offset_after]
    exact Nat.zero_add _
  have hstop : (Position.origin.after (before ++ front)).offset =
      before.utf8Encode.size + front.utf8Encode.size := by
    rw [Position.offset_after, List.utf8Encode_append, ByteArray.size_append]
    exact Nat.zero_add _
  rw [slice?, if_pos (by rw [hsource, hstart, hstop]; simp only [ByteArray.size_append]; omega),
    hsource, hstart, hstop]
  have hcut := ByteArray.extract_append_size_add (a := before.utf8Encode)
    (b := front.utf8Encode ++ behind.utf8Encode) (i := 0) (j := front.utf8Encode.size)
  rw [Nat.add_zero, ByteArray.extract_append_eq_left rfl] at hcut
  rw [hcut, String.toUTF8_eq_toByteArray, String.toByteArray_ofList]

end Utf8

theorem fromUTF8?_toUTF8 (s : String) : String.fromUTF8? s.toUTF8 = some s := by
  simp [String.fromUTF8?, String.fromUTF8, s.isValidUTF8]

/-- A token whose text is what stands in the source between its ends. -/
structure Token.StandsIn (source : ByteArray) (t : Token) : Prop where
  text : ∀ head : NodeHead, head.span = t.span → Surface.textOf source head = .ok t.value
  lexeme : Lexical.IsLexeme t.kind t.value

namespace Lexical

/-- Each lexeme stands in the text, at the place that its span says. -/
theorem mem_lexemes {bound before rest : List Char} {item : Lexeme × Span}
    (h : item ∈ lexemes bound ⟨rest, .after .origin before⟩) :
    ∃ gap behind, rest = gap ++ item.1.text ++ behind ∧
      item.2 = ⟨.after .origin (before ++ gap),
        .after .origin (before ++ gap ++ item.1.text)⟩ ∧
      ∀ kind, item.1.kind? = some kind → IsLexeme kind (String.ofList item.1.text) := by
  induction bound generalizing before rest with
  | nil => simp [lexemes] at h
  | cons b bound ih =>
    cases rest with
    | nil => simp [lexemes] at h
    | cons c cs =>
      obtain ⟨hsplit, -, hkind⟩ := nextLexeme_sound c cs
      simp only [lexemes, ← Position.after_append, List.mem_cons] at h
      rcases h with rfl | h
      · exact ⟨[], (nextLexeme c cs).2, hsplit, by simp [Position.after_append], hkind⟩
      · obtain ⟨gap, behind, hrest, hspan, hk⟩ := ih h
        refine ⟨(nextLexeme c cs).1.text ++ gap, behind, ?_, ?_, hk⟩
        · rw [hsplit, hrest]
          simp
        · simpa using hspan

end Lexical

/-- **The text under a token of a source is the token's value, and fits its kind.** -/
theorem standsIn_of_mem_tokens {source : String} {t : Token} (h : t ∈ tokens source) :
    t.StandsIn source.toUTF8 := by
  obtain ⟨⟨l, span⟩, hmem, htok⟩ := List.mem_filterMap.mp h
  have hfrom : (l, span) ∈ Lexical.lexemes source.toList ⟨source.toList, .after .origin []⟩ := hmem
  obtain ⟨gap, behind, hrest, hspan, hkind⟩ := Lexical.mem_lexemes hfrom
  obtain ⟨kind, hk, rfl⟩ := Option.map_eq_some_iff.mp htok
  simp only [List.nil_append] at hspan hkind hrest
  refine ⟨?_, hkind kind hk⟩
  intro head hhead
  have hslice := Utf8.slice?_between hrest
  rw [Surface.textOf, hhead, hspan]
  simp only [hslice, fromUTF8?_toUTF8]

section
variable {source : ByteArray} {head : NodeHead} {text : String}

/-- A node is read as the number that its text is read as. -/
theorem Surface.numberOf_eq_ok_iff (h : textOf source head = .ok text) {value : UInt64} :
    numberOf source head = .ok value ↔ Numeral.read? text = some value := by
  simp only [numberOf, h, bind, Except.bind]
  cases Numeral.read? text <;> simp [pure, Except.pure, throw, throwThe, MonadExceptOf.throw]

theorem Surface.numberOf_eq_error_iff (h : textOf source head = .ok text) :
    numberOf source head = .error ⟨.numberParse text, head.span.start⟩ ↔
      Numeral.read? text = none := by
  simp only [numberOf, h, bind, Except.bind]
  cases Numeral.read? text <;> simp [pure, Except.pure, throw, throwThe, MonadExceptOf.throw]

end

end BlockC
