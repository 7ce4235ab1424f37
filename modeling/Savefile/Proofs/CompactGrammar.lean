import Savefile.Proofs.Linking
import Savefile.Proofs.Literal
import Savefile.Proofs.Text

/-!
# The grammar of compact formats

A compact format is white space, perhaps the mark of a byte order, and tokens with white space
between them. A token is a number unless it is left out, a letter and perhaps a name. The grammar
says which text describes which schema, and the reader of formats accepts just what it describes.
-/
namespace Savefile

namespace Text

/-- Words with white space around them and between each two of them. -/
inductive Spaced : List Char → List (List Char) → Prop
  | blank {gap : List Char} : (∀ c ∈ gap, isSpace c) → Spaced gap []
  | word {gap word rest : List Char} {words : List (List Char)} :
      (∀ c ∈ gap, isSpace c) → word ≠ [] → (∀ c ∈ word, isSpace c = false) →
      (∀ c, rest.head? = some c → isSpace c) → Spaced rest words →
      Spaced (gap ++ word ++ rest) (word :: words)

section Words

variable {gap word cs : List Char} {ws : List (List Char)}

theorem wordsFrom_gap (hgap : ∀ c ∈ gap, isSpace c) (cs : List Char) :
    wordsFrom [] (gap ++ cs) = wordsFrom [] cs := by
  induction gap with
  | nil => rfl
  | cons c gap ih =>
    obtain ⟨hc, hgap⟩ := List.forall_mem_cons.mp hgap
    rw [List.cons_append, wordsFrom, if_pos hc]
    exact ih hgap

theorem wordsFrom_word (hword : ∀ c ∈ word, isSpace c = false) (begun cs : List Char) :
    wordsFrom begun (word ++ cs) = wordsFrom (word.reverse ++ begun) cs := by
  induction word generalizing begun with
  | nil => rfl
  | cons c word ih =>
    obtain ⟨hc, hword⟩ := List.forall_mem_cons.mp hword
    rw [List.cons_append, wordsFrom, hc, if_neg Bool.false_ne_true, ih hword]
    simp

theorem wordsFrom_end (hne : word ≠ []) (hend : ∀ c, cs.head? = some c → isSpace c) :
    wordsFrom word cs = word.reverse :: wordsFrom [] cs := by
  have hempty : word.isEmpty = false := by simpa using hne
  cases cs with
  | nil => simp [wordsFrom, hempty]
  | cons c cs => simp [wordsFrom, hempty, hend c rfl]

theorem Spaced.words_eq (h : Spaced cs ws) : words cs = ws := by
  induction h with
  | blank hgap =>
    have hnil := wordsFrom_gap hgap []
    rwa [List.append_nil] at hnil
  | @word gap word rest ws hgap hne hword hend _ ih =>
    rw [words, List.append_assoc, wordsFrom_gap hgap, wordsFrom_word hword, List.append_nil,
      wordsFrom_end (by simpa using hne) hend, List.reverse_reverse]
    exact congrArg _ ih

theorem Spaced.gap_append (hgap : ∀ c ∈ gap, isSpace c) (h : Spaced cs ws) :
    Spaced (gap ++ cs) ws := by
  cases h with
  | blank hcs => exact .blank (List.forall_mem_append.mpr ⟨hgap, hcs⟩)
  | word hgap' hne hword hend hrest =>
    rw [List.append_assoc, ← List.append_assoc, ← List.append_assoc]
    exact .word (List.forall_mem_append.mpr ⟨hgap, hgap'⟩) hne hword hend hrest

theorem Spaced.append_gap (h : Spaced cs ws) (hgap : ∀ c ∈ gap, isSpace c) :
    Spaced (cs ++ gap) ws := by
  induction h with
  | blank hcs => exact .blank (List.forall_mem_append.mpr ⟨hcs, hgap⟩)
  | @word _ _ rest _ hfront hne hword hend _ ih =>
    rw [List.append_assoc]
    refine .word hfront hne hword ?_ ih
    intro c hc
    cases rest with
    | nil => exact hgap c (List.mem_of_mem_head? hc)
    | cons d rest => exact hend c hc

theorem spaced_word (hne : word ≠ []) (hword : ∀ c ∈ word, isSpace c = false)
    (hend : ∀ c, cs.head? = some c → isSpace c) (h : Spaced cs ws) :
    Spaced (word ++ cs) (word :: ws) :=
  .word (List.forall_mem_nil _) hne hword hend h

theorem spaced_wordsFrom (hword : ∀ c ∈ word, isSpace c = false) (cs : List Char) :
    Spaced (word.reverse ++ cs) (wordsFrom word cs) := by
  induction cs generalizing word with
  | nil =>
    rw [wordsFrom, List.append_nil]
    split
    · rename_i hempty
      rw [List.isEmpty_iff.mp hempty]
      exact .blank (List.forall_mem_nil _)
    · rename_i hempty
      have hone : Spaced (word.reverse ++ []) [word.reverse] :=
        spaced_word (by simpa using hempty) (by simpa using hword) (by simp)
          (.blank (List.forall_mem_nil _))
      rwa [List.append_nil] at hone
  | cons c cs ih =>
    rw [wordsFrom]
    split
    · rename_i hc
      -- the word that was begun, if any, ends here
      have hgap : ∀ d ∈ [c], isSpace d := by simpa using hc
      have hrest : Spaced (c :: cs) (wordsFrom [] cs) :=
        (ih (List.forall_mem_nil _)).gap_append hgap
      split
      · rename_i hempty
        rw [List.isEmpty_iff.mp hempty]
        exact hrest
      · rename_i hempty
        exact spaced_word (by simpa using hempty) (by simpa using hword) (by simpa using hc) hrest
    · rename_i hc
      have hlonger := ih (List.forall_mem_cons.mpr ⟨Bool.eq_false_iff.mpr hc, hword⟩)
      simpa using hlonger

theorem spaced_words (cs : List Char) : Spaced cs (words cs) :=
  spaced_wordsFrom (List.forall_mem_nil _) cs

/-- A text that begins with no white space begins with its first word. -/
theorem Spaced.exists_cons {c : Char} (hc : isSpace c = false) (h : Spaced (c :: cs) ws) :
    ∃ w rest, ws = (c :: w) :: rest := by
  generalize htext : c :: cs = text at h
  cases h with
  | blank hgap =>
    rw [hgap c (by simp [← htext])] at hc
    cases hc
  | @word gap word rest ws hgap hne _ _ _ =>
    cases gap with
    | cons d gap =>
      rw [hgap c (by simp [(List.cons.inj htext).1])] at hc
      cases hc
    | nil =>
      obtain ⟨d, word, rfl⟩ := List.exists_cons_of_ne_nil hne
      exact ⟨word, ws, by rw [(List.cons.inj htext).1]⟩

/-- What trimming takes off is white space, and what it leaves begins with none. -/
theorem exists_trim (cs : List Char) :
    ∃ before after, cs = before ++ trimChars cs ++ after ∧ (∀ c ∈ before, isSpace c) ∧
      (∀ c ∈ after, isSpace c) ∧ ∀ c, (trimChars cs).head? = some c → isSpace c = false := by
  have hfront : ∀ l : List Char, l.takeWhile isSpace ++ l.dropWhile isSpace = l :=
    fun l => List.takeWhile_append_dropWhile
  have hback : cs.dropWhile isSpace = trimChars cs ++
      ((cs.dropWhile isSpace).reverse.takeWhile isSpace).reverse := by
    rw [trimChars, ← List.reverse_append, hfront, List.reverse_reverse]
  have hblank : ∀ l : List Char, ∀ c ∈ l.takeWhile isSpace, isSpace c :=
    fun l => List.all_eq_true.mp List.all_takeWhile
  refine ⟨cs.takeWhile isSpace, ((cs.dropWhile isSpace).reverse.takeWhile isSpace).reverse, ?_,
    hblank cs, ?_, ?_⟩
  · rw [List.append_assoc, ← hback, hfront]
  · intro c hc
    exact hblank _ c (List.mem_reverse.mp hc)
  · intro c hc
    have hhead : (cs.dropWhile isSpace).head? = some c := by
      rw [hback, List.head?_append, hc]
      rfl
    have hnot := List.head?_dropWhile_not isSpace cs
    rw [hhead] at hnot
    simpa using hnot

theorem spaced_trimChars (cs : List Char) : Spaced cs (words (trimChars cs)) := by
  obtain ⟨before, after, htext, hbefore, hafter, -⟩ := exists_trim cs
  have hspaced := ((spaced_words (trimChars cs)).gap_append hbefore).append_gap hafter
  rwa [← htext] at hspaced

/-- Trimming a text that begins with a character after white space takes off the white space before
it, and of what follows it only white space at the end. -/
theorem trimChars_gap_cons {c : Char} (hgap : ∀ d ∈ gap, isSpace d) (hc : isSpace c = false)
    (cs : List Char) :
    ∃ rest after, trimChars (gap ++ c :: cs) = c :: rest ∧ cs = rest ++ after ∧
      ∀ d ∈ after, isSpace d := by
  obtain ⟨before, after, htext, hbefore, hafter, hhead⟩ := exists_trim (gap ++ c :: cs)
  generalize trimChars (gap ++ c :: cs) = trimmed at htext hhead
  have hdrop : (gap ++ c :: cs).dropWhile isSpace = c :: cs :=
    dropWhile_isSpace_append hgap (by simpa using hc)
  cases trimmed with
  | nil =>
    have hall : ∀ d ∈ gap ++ c :: cs, isSpace d := by
      rw [htext, List.append_nil]
      exact List.forall_mem_append.mpr ⟨hbefore, hafter⟩
    rw [hall c (by simp)] at hc
    cases hc
  | cons d rest =>
    rw [htext, List.append_assoc,
      dropWhile_isSpace_append hbefore (by simpa using hhead d rfl)] at hdrop
    obtain ⟨rfl, rfl⟩ := List.cons.inj hdrop
    exact ⟨rest, after, rfl, rfl, hafter⟩

end Words

end Text

namespace Schema

namespace Format

open Decimal (digitsValue)

/-- The letters of a format with the scalar kinds that they stand for. -/
def letters : List (Char × Primitive) :=
  [('b', .i8), ('B', .u8), ('h', .i16), ('H', .u16), ('i', .i32), ('I', .u32), ('l', .i32),
    ('L', .u32), ('q', .i64), ('Q', .u64), ('f', .f32), ('d', .f64), ('?', .bool)]

/-- What may stand before the tokens, and the byte order that it asks for. -/
inductive OrderMark : List Char → ByteOrder → Prop
  | absent : OrderMark [] .big
  | little : OrderMark ['<'] .little
  | big : OrderMark ['>'] .big
  | network : OrderMark ['!'] .big

/-- What may follow the letter of the token with number `i`, and the identifier of its field. -/
inductive TokenName (i : Nat) : List Char → String → Prop
  | absent : TokenName i [] ("field_" ++ toString i)
  | given {id : String} : Text.isIdentifier id → id ≠ rootVariable →
      TokenName i (':' :: id.toList) id

/-- How the field of a token is repeated: by the number that its digits write, unless there are none
or the number is one. -/
inductive TokenCount : List Char → Option Repetition → Prop
  | single {digits : List Char} : digits = [] ∨ digitsValue digits = 1 → TokenCount digits none
  | counted {digits : List Char} {expr : Expr} : digits ≠ [] → digitsValue digits ≠ 1 →
      Expr.compile? (toString (digitsValue digits)) = some expr →
      (∀ scope, expr.evalCount scope = .ok (digitsValue digits)) →
      TokenCount digits (some ⟨.count, expr⟩)

/-- The token with number `i` and its field. -/
inductive Token (i : Nat) : List Char → Field → Prop
  | intro {digits suffix : List Char} {letter : Char} {p : Primitive} {id : String}
      {repetition : Option Repetition} :
      (∀ c ∈ digits, c.isDigit) → digitsValue digits < 2 ^ 63 → (letter, p) ∈ letters →
      TokenName i suffix id → TokenCount digits repetition →
      Token i (digits ++ letter :: suffix) ⟨id, .ofPrimitive p, none, repetition⟩

/-- The tokens from number `i` on and their fields. -/
inductive Tokens : Nat → List (List Char) → List Field → Prop
  | nil {i : Nat} : Tokens i [] []
  | cons {i : Nat} {token : List Char} {tokens : List (List Char)} {f : Field} {fs : List Field} :
      Token i token f → Tokens (i + 1) tokens fs → Tokens i (token :: tokens) (f :: fs)

/-- The parts of a text: white space, the mark of a byte order, and words. -/
inductive Parts (format : String) : ByteOrder → List (List Char) → Prop
  | intro {gap mark rest : List Char} {order : ByteOrder} {tokens : List (List Char)} :
      format.toList = gap ++ mark ++ rest → (∀ c ∈ gap, Text.isSpace c) → OrderMark mark order →
      Text.Spaced rest tokens → Parts format order tokens

/-- The schema that a format describes. -/
inductive Describes (format : String) : Schema → Prop
  | intro {order : ByteOrder} {tokens : List (List Char)} {fields : List Field} :
      Parts format order tokens → tokens ≠ [] → Tokens 0 tokens fields →
      (fields.map (·.id)).Nodup → Describes format ⟨order, [], ⟨"root", fields⟩⟩

theorem formatPrimitive?_eq_some_iff {c : Char} {p : Primitive} :
    formatPrimitive? c = some p ↔ (c, p) ∈ letters := by
  constructor
  · intro h
    unfold formatPrimitive? at h
    split at h <;> cases h <;> decide
  · intro h
    have hall : (letters.all fun x => formatPrimitive? x.1 == some x.2) = true := by decide
    simpa using List.all_eq_true.mp hall _ h

theorem formatOrder?_cases {c : Char} {order : ByteOrder} (h : formatOrder? c = some order) :
    OrderMark [c] order ∧ Text.isSpace c = false := by
  unfold formatOrder? at h
  split at h <;> cases h
  · exact ⟨.little, by decide⟩
  · exact ⟨.big, by decide⟩
  · exact ⟨.network, by decide⟩

theorem OrderMark.cases {mark : List Char} {order : ByteOrder} (h : OrderMark mark order) :
    mark = [] ∧ order = .big ∨ ∃ c, mark = [c] ∧ formatOrder? c = some order := by
  cases h with
  | absent => exact .inl ⟨rfl, rfl⟩
  | little | big | network => exact .inr ⟨_, rfl, rfl⟩

theorem Parts.unmarked {format : String} {tokens : List (List Char)}
    (h : Text.Spaced format.toList tokens) : Parts format .big tokens :=
  have htext : format.toList = [] ++ [] ++ format.toList := rfl
  .intro htext (List.forall_mem_nil _) .absent h

/-- The parts that the reader of a format takes it into. -/
theorem parts_formatParts (format : String) :
    Parts format (formatParts format).1 (formatParts format).2 := by
  obtain ⟨before, after, htext, hbefore, hafter, -⟩ := Text.exists_trim format.toList
  have hspaced := Text.spaced_trimChars format.toList
  unfold formatParts
  generalize Text.trimChars format.toList = trimmed at htext hspaced
  split
  · exact .unmarked hspaced
  · rename_i c cs
    split
    · rename_i order horder
      have hmark : format.toList = before ++ [c] ++ (cs ++ after) := by simpa using htext
      exact .intro hmark hbefore (formatOrder?_cases horder).1
        ((Text.spaced_words cs).append_gap hafter)
    · exact .unmarked hspaced

/-- There are no other parts with tokens of which the first does not begin with a mark. -/
theorem Parts.formatParts_eq {format : String} {order : ByteOrder} {tokens : List (List Char)}
    (h : Parts format order tokens)
    (hfirst : ∀ c w rest, tokens = (c :: w) :: rest → formatOrder? c = none) :
    formatParts format = (order, tokens) := by
  obtain @⟨gap, mark, tail, _, _, htext, hgap, hmark, hspaced⟩ := h
  rcases hmark.cases with ⟨rfl, rfl⟩ | ⟨c, rfl, hc⟩
  · have hwords : Text.words (Text.trimChars format.toList) = tokens := by
      rw [← (Text.spaced_trimChars format.toList).words_eq, htext, List.append_nil]
      exact (hspaced.gap_append hgap).words_eq
    obtain ⟨-, -, -, -, -, hhead⟩ := Text.exists_trim format.toList
    unfold formatParts
    generalize Text.trimChars format.toList = trimmed at hwords hhead
    subst hwords
    split
    · rfl
    · rename_i c cs
      obtain ⟨w, rest, hcons⟩ := (Text.spaced_words (c :: cs)).exists_cons (hhead c rfl)
      rw [hfirst c w rest hcons]
  · obtain ⟨rest, after, htrim, rfl, hafter⟩ :=
      Text.trimChars_gap_cons hgap (formatOrder?_cases hc).2 tail
    have hwords := ((Text.spaced_words rest).append_gap hafter).words_eq
    rw [hspaced.words_eq] at hwords
    rw [formatParts, htext, List.append_assoc, List.singleton_append, htrim]
    simp only [hc, hwords]

/-- A letter is one of the characters that may follow the digits, and neither a digit nor the mark
of a byte order. -/
theorem letter_cases {c : Char} {p : Primitive} (h : (c, p) ∈ letters) :
    (c.isAlpha || c == '?') = true ∧ c.isDigit = false ∧ formatOrder? c = none := by
  have hall : (letters.all fun x => (x.1.isAlpha || x.1 == '?') && !x.1.isDigit &&
      (formatOrder? x.1).isNone) = true := by decide
  simpa [and_assoc] using List.all_eq_true.mp hall _ h

/-- What follows the letter of a token. -/
def suffix : Option (List Char) → List Char
  | none => []
  | some name => ':' :: name

/-- The parts of a token make it up. -/
theorem eq_of_parse? {cs : List Char} {t : FormatToken} (h : FormatToken.parse? cs = some t) :
    cs = t.digits ++ t.code :: suffix t.name ∧ ∀ c ∈ t.digits, c.isDigit := by
  have hcs : cs.takeWhile Char.isDigit ++ cs.dropWhile Char.isDigit = cs :=
    List.takeWhile_append_dropWhile
  have hdigits : ∀ c ∈ cs.takeWhile Char.isDigit, c.isDigit :=
    List.all_eq_true.mp List.all_takeWhile
  unfold FormatToken.parse? at h
  dsimp only at h
  split at h
  · cases h
  · rename_i c rest hrest
    rw [hrest] at hcs
    split at h
    · split at h
      · cases h
        exact ⟨hcs.symm, hdigits⟩
      · split at h
        · cases h
        · cases h
          exact ⟨hcs.symm, hdigits⟩
      · cases h
    · cases h

theorem parse?_of_letter {digits : List Char} {letter : Char} {p : Primitive}
    {name : Option (List Char)} (hdigits : ∀ c ∈ digits, c.isDigit)
    (hletter : (letter, p) ∈ letters) (hname : name ≠ some []) :
    FormatToken.parse? (digits ++ letter :: suffix name) = some ⟨digits, letter, name⟩ := by
  obtain ⟨halpha, hdigit, -⟩ := letter_cases hletter
  have hfirst : Decimal.NoDigitFirst (letter :: suffix name) := by
    rintro c ⟨⟩
    exact hdigit
  rw [FormatToken.parse?, Decimal.takeWhile_digits hdigits hfirst,
    Decimal.dropWhile_digits hdigits hfirst]
  simp only [halpha, if_true]
  cases name with
  | none => rfl
  | some name =>
    have hempty : name.isEmpty = false := by simpa using hname
    simp [suffix, hempty]

theorem tokenRepetition_eq_ok_iff {digits : List Char} {repetition : Option Repetition}
    (hdigits : ∀ c ∈ digits, c.isDigit) :
    tokenRepetition digits = .ok repetition ↔
      digitsValue digits < 2 ^ 63 ∧ TokenCount digits repetition := by
  unfold tokenRepetition
  constructor
  · intro h
    split at h
    · rename_i hempty
      cases h
      rw [List.isEmpty_iff.mp hempty]
      exact ⟨by decide, .single (.inl rfl)⟩
    · rename_i hempty
      split at h
      · cases h
      · rename_i n hn
        obtain ⟨rfl, hlimit⟩ := Decimal.readSigned_digits hdigits hn
        refine ⟨hlimit, ?_⟩
        simp only [Nat.cast_eq_one, Int.toNat_natCast] at h
        split at h
        · rename_i hone
          cases h
          exact .single (.inr hone)
        · rename_i hone
          cases h
          exact .counted (by simpa using hempty) hone (compile?_literalCount hlimit)
            (evalCount_literalCount hlimit)
  · rintro ⟨hlimit, hcount⟩
    by_cases hempty : digits = []
    · subst hempty
      cases hcount with
      | single => rfl
      | counted hne => exact absurd rfl hne
    · rw [if_neg (by simpa using hempty), Decimal.readSigned_of_digits hdigits hempty hlimit]
      simp only [Nat.cast_eq_one, Int.toNat_natCast]
      cases hcount with
      | single h => rw [if_pos (h.resolve_left hempty)]
      | counted _ hone hexpr _ =>
        have hliteral := compile?_literalCount hlimit
        rw [literalCount, hexpr] at hliteral
        rw [if_neg hone, Option.some.inj hliteral]
        rfl

theorem tokenName_of_tokenId {i : Nat} {name : Option (List Char)} {id : String}
    (h : tokenId i name = .ok id) : TokenName i (suffix name) id := by
  unfold tokenId at h
  split at h
  · cases h
    exact .absent
  · rename_i cs
    dsimp only at h
    split at h
    · rename_i hid
      cases h
      simp only [Bool.and_eq_true, bne_iff_ne] at hid
      have hgiven : TokenName i (':' :: (String.ofList cs).toList) (String.ofList cs) :=
        .given hid.1 hid.2
      rwa [String.toList_ofList] at hgiven
    · cases h

theorem TokenName.exists_tokenId {i : Nat} {rest : List Char} {id : String}
    (h : TokenName i rest id) :
    ∃ name, rest = suffix name ∧ name ≠ some [] ∧ tokenId i name = .ok id := by
  cases h with
  | absent => exact ⟨none, rfl, Option.some_ne_none _ |>.symm, rfl⟩
  | given hid hroot =>
    refine ⟨some id.toList, rfl, ?_, ?_⟩
    · intro hnil
      rw [Text.isIdentifier, Option.some.inj hnil] at hid
      cases hid
    · simp [tokenId, String.ofList_toList, hid, hroot]

/-- The reader of tokens takes just the tokens of the grammar, with their fields. -/
theorem tokenField_eq_ok_iff {i : Nat} {cs : List Char} {f : Field} :
    tokenField i cs = .ok f ↔ Token i cs f := by
  constructor
  · intro h
    obtain ⟨t, p, id, repetition, ht, hp, hid, hrepetition, rfl⟩ := tokenField_ok h
    obtain ⟨rfl, hdigits⟩ := eq_of_parse? ht
    obtain ⟨hlimit, hcount⟩ := (tokenRepetition_eq_ok_iff hdigits).mp hrepetition
    have hletter := formatPrimitive?_eq_some_iff.mp hp
    exact .intro hdigits hlimit hletter (tokenName_of_tokenId hid) hcount
  · rintro ⟨hdigits, hlimit, hletter, hsuffix, hcount⟩
    obtain ⟨name, rfl, hname, hid⟩ := hsuffix.exists_tokenId
    have hrepetition := (tokenRepetition_eq_ok_iff hdigits).mpr ⟨hlimit, hcount⟩
    rw [tokenField, parse?_of_letter hdigits hletter hname]
    simp only [formatPrimitive?_eq_some_iff.mpr hletter, hid, hrepetition, ok_bind]

theorem tokenFields_eq_ok_iff {i : Nat} {tokens : List (List Char)} {fields : List Field} :
    tokenFields i tokens = .ok fields ↔ Tokens i tokens fields := by
  constructor
  · intro h
    induction tokens generalizing i fields with
    | nil =>
      cases h
      exact .nil
    | cons token tokens ih =>
      obtain ⟨f, fs, rfl, hf, hfs⟩ := tokenFields_cons_ok h
      exact .cons (tokenField_eq_ok_iff.mp hf) (ih hfs)
  · intro h
    induction h with
    | nil => rfl
    | cons hf _ ih =>
      rw [tokenFields, tokenField_eq_ok_iff.mpr hf, ih]
      rfl

/-- Fields of scalars that are always there make a schema without declared types. -/
theorem build_scalars {order : ByteOrder} {fields : List Field}
    (h : ∀ f ∈ fields, f.type.kind.isComposite = false ∧ f.condition = none) :
    build order defaultRootName [] fields = .ok ⟨order, [], ⟨defaultRootName, fields⟩⟩ := by
  have hfault : Schema.fault? ⟨order, [], ⟨defaultRootName, fields⟩⟩ = none := by
    refine fault?_eq_none_iff.mpr ⟨?_, List.forall_mem_nil _⟩
    rintro t (ht | rfl) f hf
    · cases ht
    · obtain ⟨hkind, hcondition⟩ := h f hf
      refine ⟨fun hcomposite => ?_, fun cond hcond => ?_⟩
      · rw [hkind] at hcomposite
        cases hcomposite
      · rw [hcondition] at hcond
        cases hcond
  exact build_eq_ok_iff.mpr ⟨rfl, List.nodup_nil, List.forall_mem_nil _, hfault⟩

theorem Tokens.scalars {i : Nat} {tokens : List (List Char)} {fields : List Field}
    (h : Tokens i tokens fields) :
    ∀ f ∈ fields, f.type.kind.isComposite = false ∧ f.condition = none := by
  induction h with
  | nil => exact List.forall_mem_nil _
  | cons hf _ ih =>
    obtain ⟨⟩ := hf
    exact List.forall_mem_cons.mpr ⟨⟨rfl, rfl⟩, ih⟩

theorem Tokens.isEmpty_eq {i : Nat} {tokens : List (List Char)} {fields : List Field}
    (h : Tokens i tokens fields) : fields.isEmpty = tokens.isEmpty := by
  cases h <;> rfl

theorem Token.unmarked {i : Nat} {c : Char} {w : List Char} {f : Field} (h : Token i (c :: w) f) :
    formatOrder? c = none := by
  generalize htoken : c :: w = token at h
  obtain @⟨digits, suffix, letter, p, _, _, hdigits, _, hletter, _, _⟩ := h
  cases digits with
  | nil =>
    rw [(List.cons.inj htoken).1]
    exact (letter_cases hletter).2.2
  | cons d digits =>
    have hdigit := hdigits d List.mem_cons_self
    rw [← (List.cons.inj htoken).1] at hdigit
    -- none of the marks is a digit
    cases hmark : formatOrder? c with
    | none => rfl
    | some order =>
      obtain ⟨hmark, -⟩ := formatOrder?_cases hmark
      cases hmark <;> cases hdigit

theorem Tokens.unmarked {i : Nat} {tokens : List (List Char)} {fields : List Field}
    (h : Tokens i tokens fields) (c : Char) (w : List Char) (rest : List (List Char))
    (hfirst : tokens = (c :: w) :: rest) : formatOrder? c = none := by
  subst hfirst
  cases h with
  | cons hf _ => exact hf.unmarked

section Reading

variable {format : String} {order : ByteOrder} {tokens : List (List Char)} {fields : List Field}

theorem parseCompact_of_error {e : SchemaError}
    (h : tokenFields 0 (formatParts format).2 = .error e) : parseCompact format = .error e := by
  simp [parseCompact, h]

theorem parseCompact_of_empty (h : Tokens 0 (formatParts format).2 []) :
    parseCompact format = .error ⟨"format", .noFields⟩ := by
  simp [parseCompact, tokenFields_eq_ok_iff.mpr h]

theorem parseCompact_of_repeat (h : Tokens 0 (formatParts format).2 fields) (hne : fields ≠ [])
    {i : Nat} {id : String} (hid : firstRepeat? [] 0 (fields.map (·.id)) = some (i, id)) :
    parseCompact format = .error ⟨tokenPath i, .duplicateField id⟩ := by
  simp [parseCompact, tokenFields_eq_ok_iff.mpr h, hne, hid]

theorem parseCompact_of_distinct (h : Tokens 0 (formatParts format).2 fields) (hne : fields ≠ [])
    (hids : firstRepeat? [] 0 (fields.map (·.id)) = none) :
    parseCompact format = .ok ⟨(formatParts format).1, [], ⟨"root", fields⟩⟩ := by
  simp [parseCompact, tokenFields_eq_ok_iff.mpr h, hne, hids, build_scalars h.scalars]
  rfl

end Reading

/-- The reader of formats accepts just what the grammar describes, and gives that schema. -/
theorem parseCompact_eq_ok_iff {format : String} {s : Schema} :
    parseCompact format = .ok s ↔ Describes format s := by
  constructor
  · intro h
    obtain ⟨fields, hfields, hids, hbuild⟩ := parseCompact_ok h
    have htokens := tokenFields_eq_ok_iff.mp hfields
    rw [build_scalars htokens.scalars] at hbuild
    cases hbuild
    refine .intro (parts_formatParts format) ?_ htokens hids
    intro hnil
    have hempty : fields = [] := by simpa [hnil] using htokens.isEmpty_eq
    rw [hempty] at htokens
    rw [parseCompact_of_empty htokens] at h
    cases h
  · rintro @⟨order, tokens, fields, hparts, hne, htokens, hids⟩
    have hparts := hparts.formatParts_eq htokens.unmarked
    have hfields : fields ≠ [] := by
      rintro rfl
      exact hne (by simpa using htokens.isEmpty_eq.symm)
    have hdistinct : firstRepeat? [] 0 (fields.map (·.id)) = none :=
      (firstRepeat?_eq_none_iff 0).mpr ⟨hids, fun _ _ => List.not_mem_nil⟩
    have hread := parseCompact_of_distinct (by rwa [hparts]) hfields hdistinct
    rwa [hparts] at hread

/-- Why tokens are refused: there are none, one of them is not in the grammar while those before it
are, or the identifier of one stands before it. -/
inductive Refused (tokens : List (List Char)) : SchemaError → Prop
  | empty : tokens = [] → Refused tokens ⟨"format", .noFields⟩
  | token {i : Nat} {token : List Char} {before : List Field} {problem : SchemaProblem} :
      tokens[i]? = some token → (∀ f, ¬Token i token f) → Tokens 0 (tokens.take i) before →
      Refused tokens ⟨fieldPath "format" i, problem⟩
  | repeated {i : Nat} {f : Field} {fields : List Field} :
      Tokens 0 tokens fields → fields[i]? = some f → f.id ∈ (fields.take i).map (·.id) →
      ((fields.take i).map (·.id)).Nodup →
      Refused tokens ⟨fieldPath "format" i, .duplicateField f.id⟩

theorem exists_of_tokenFields_error {i : Nat} {tokens : List (List Char)} {e : SchemaError}
    (h : tokenFields i tokens = .error e) :
    ∃ j token before, tokens[j]? = some token ∧ (∀ f, ¬Token (i + j) token f) ∧
      Tokens i (tokens.take j) before ∧ e.path = fieldPath "format" (i + j) := by
  induction tokens generalizing i with
  | nil => cases h
  | cons token tokens ih =>
    unfold tokenFields at h
    split at h
    · rename_i problem hproblem
      cases h
      refine ⟨0, token, [], rfl, ?_, .nil, rfl⟩
      intro f hf
      rw [Nat.add_zero] at hf
      rw [tokenField_eq_ok_iff.mpr hf] at hproblem
      cases hproblem
    · rename_i f hf
      cases hrest : tokenFields (i + 1) tokens with
      | ok fs =>
        rw [hrest] at h
        cases h
      | error e' =>
        rw [hrest] at h
        cases h
        obtain ⟨j, wrong, before, hj, hwrong, hbefore, hpath⟩ := ih hrest
        rw [Nat.add_assoc, Nat.add_comm 1] at hwrong hpath
        exact ⟨j + 1, wrong, f :: before, hj, hwrong,
          .cons (tokenField_eq_ok_iff.mp hf) hbefore, hpath⟩

theorem exists_of_firstRepeat? {seen names : List String} {i j : Nat} {name : String}
    (h : firstRepeat? seen i names = some (j, name)) :
    ∃ k, j = i + k ∧ names[k]? = some name ∧ (name ∈ names.take k ∨ name ∈ seen) ∧
      (names.take k).Nodup ∧ ∀ n ∈ names.take k, n ∉ seen := by
  induction names generalizing seen i with
  | nil => cases h
  | cons n names ih =>
    unfold firstRepeat? at h
    split at h
    · rename_i hseen
      cases h
      exact ⟨0, rfl, rfl, .inr (by simpa using hseen), List.nodup_nil, List.forall_mem_nil _⟩
    · rename_i hseen
      obtain ⟨k, rfl, hname, hbefore, hnodup, hfresh⟩ := ih h
      refine ⟨k + 1, by omega, hname, ?_, ?_, ?_⟩
      · simpa [or_assoc, or_comm, or_left_comm] using hbefore
      · rw [List.take_succ_cons, List.nodup_cons]
        exact ⟨fun hn => hfresh n hn List.mem_cons_self, hnodup⟩
      · rw [List.take_succ_cons]
        exact List.forall_mem_cons.mpr ⟨by simpa using hseen,
          fun m hm hs => hfresh m hm (List.mem_cons_of_mem _ hs)⟩

theorem refused_of_parseCompact {format : String} {e : SchemaError}
    (h : parseCompact format = .error e) : Refused (formatParts format).2 e := by
  cases hfields : tokenFields 0 (formatParts format).2 with
  | error e' =>
    rw [parseCompact_of_error hfields] at h
    cases h
    obtain ⟨j, token, before, hj, hwrong, hbefore, hpath⟩ := exists_of_tokenFields_error hfields
    obtain ⟨path, problem⟩ := e
    simp only [Nat.zero_add] at hwrong hpath
    subst hpath
    exact .token hj hwrong hbefore
  | ok fields =>
    have htokens := tokenFields_eq_ok_iff.mp hfields
    by_cases hne : fields = []
    · rw [hne] at htokens
      rw [parseCompact_of_empty htokens] at h
      cases h
      refine .empty ?_
      simpa using htokens.isEmpty_eq.symm
    · cases hid : firstRepeat? [] 0 (fields.map (·.id)) with
      | none =>
        rw [parseCompact_of_distinct htokens hne hid] at h
        cases h
      | some found =>
        obtain ⟨i, id⟩ := found
        rw [parseCompact_of_repeat htokens hne hid] at h
        cases h
        obtain ⟨k, hk, hname, hbefore, hnodup, -⟩ := exists_of_firstRepeat? hid
        rw [Nat.zero_add] at hk
        subst hk
        rw [List.getElem?_map, Option.map_eq_some_iff] at hname
        obtain ⟨f, hf, rfl⟩ := hname
        rw [← List.map_take] at hbefore hnodup
        exact .repeated htokens hf (hbefore.resolve_right List.not_mem_nil) hnodup

/-- A compact format is accepted just if the grammar describes a schema by it, and that schema is
given: white space, perhaps a mark of the byte order, and at least one token, each with the
digits of a number below `2 ^ 63` or none, a letter and perhaps an identifier, and no two with the
same identifier. Any other text is refused with an error at the first token that is not in the
grammar, or else at the first whose identifier stands before it. -/
theorem parseCompact_follows_grammar (format : String) :
    (∀ s, parseCompact format = .ok s ↔ Describes format s) ∧
      ((¬∃ s, Describes format s) → ∃ e order tokens, parseCompact format = .error e ∧
        Parts format order tokens ∧ Refused tokens e) := by
  refine ⟨fun s => parseCompact_eq_ok_iff, fun hnone => ?_⟩
  cases hread : parseCompact format with
  | ok s => exact absurd ⟨s, parseCompact_eq_ok_iff.mp hread⟩ hnone
  | error e =>
    exact ⟨e, _, _, rfl, parts_formatParts format, refused_of_parseCompact hread⟩

/-- A mark that stands apart, zeros before a count, and a count of one with a zero before it are
accepted. A name that a later token gets from its place is refused. -/
theorem parseCompact_follows_grammar_places :
    (∃ s, parseCompact " < 007H:v\t01B ?:last " = .ok s ∧ Describes " < 007H:v\t01B ?:last " s) ∧
      (¬∃ s, Describes "B:field_1 B" s) ∧
      ∃ e order tokens, parseCompact "B:field_1 B" = .error e ∧ Parts "B:field_1 B" order tokens ∧
        Refused tokens e := by
  have haccepted : (parseCompact " < 007H:v\t01B ?:last ").toOption.isSome = true := by
    decide +kernel
  have hrefused : (parseCompact "B:field_1 B").toOption.isSome = false := by decide +kernel
  have hnone : ¬∃ s, Describes "B:field_1 B" s := by
    rintro ⟨s, hs⟩
    rw [((parseCompact_follows_grammar _).1 s).mpr hs] at hrefused
    cases hrefused
  refine ⟨?_, hnone, (parseCompact_follows_grammar _).2 hnone⟩
  cases hs : parseCompact " < 007H:v\t01B ?:last " with
  | error e =>
    rw [hs] at haccepted
    cases haccepted
  | ok s => exact ⟨s, rfl, ((parseCompact_follows_grammar _).1 s).mp hs⟩

end Format

end Schema

end Savefile
