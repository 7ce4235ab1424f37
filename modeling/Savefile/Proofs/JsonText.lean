import Savefile.Json.Printer
import Savefile.Json.Reader
import Savefile.Proofs.Numeral
import Savefile.Proofs.Text

/-!
# JSON texts

Reading inverts writing: the text of a value is cut into the tokens of the value, and from these
the value is read again, as long as its numbers are numerals, no key of an object stands there
twice, and its arrays and objects do not nest too deep.
-/
namespace Savefile.Json

open Decimal (Numeral NoDigitFirst)

section Numbers

variable {rest : List Char}

/-- A text that no number runs into. -/
def Separated (rest : List Char) : Prop :=
  ∀ c, rest.head? = some c → c.isDigit = false ∧ c ≠ '.' ∧ c ≠ 'e' ∧ c ≠ 'E'

theorem Separated.noDigitFirst (h : Separated rest) : NoDigitFirst rest := fun c hc => (h c hc).1

theorem separated_nil : Separated [] := by simp [Separated]

theorem separated_cons {c : Char} (hc : c.isDigit = false ∧ c ≠ '.' ∧ c ≠ 'e' ∧ c ≠ 'E') :
    Separated (c :: rest) := by
  rintro d ⟨⟩
  exact hc

theorem digitRun_digits {ds : List Char} (hds : ∀ c ∈ ds, c.isDigit) (h : NoDigitFirst rest) :
    digitRun (ds ++ rest) = (ds, rest) := by
  rw [digitRun, List.span_eq_takeWhile_dropWhile, Decimal.takeWhile_digits hds h,
    Decimal.dropWhile_digits hds h]

variable (n : Numeral)

theorem exponentPart?_numeral (h : Separated rest) :
    exponentPart? (n.exponentChars ++ rest) = some (n.exponentChars, rest) := by
  rcases hx : n.exponent with _ | ⟨negative, ds⟩
  · cases rest with
    | nil => simp [Numeral.exponentChars, hx, exponentPart?]
    | cons c cs =>
      obtain ⟨-, -, hlower, hupper⟩ := h c rfl
      simp [Numeral.exponentChars, hx, exponentPart?, hlower, hupper]
  · obtain ⟨hne, hdigits⟩ := n.exponent_digits _ hx
    have hrun := digitRun_digits hdigits h.noDigitFirst
    cases negative with
    | false => simp [Numeral.exponentChars, hx, exponentPart?, hrun, hne]
    | true => simp [Numeral.exponentChars, hx, exponentPart?, hrun, hne]

theorem fractionPart?_numeral (h : Separated rest) :
    fractionPart? (n.fractionChars ++ (n.exponentChars ++ rest)) =
      some (n.fractionChars, n.exponentChars ++ rest) := by
  unfold Numeral.fractionChars
  split
  · -- what stands in the point's place is an exponent or the text after the number
    rcases n.exponentChars_cases with hx | ⟨cs, hx⟩
    · cases rest with
      | nil => simp [hx, fractionPart?]
      | cons c cs => simp [hx, fractionPart?, (h c rfl).2.1]
    · simp [hx, fractionPart?]
  · rename_i hne
    have hrun := digitRun_digits n.fraction_digits (n.noDigitFirst_exponentChars h.noDigitFirst)
    simp [fractionPart?, hrun, hne]

theorem wholePart?_numeral (h : NoDigitFirst rest) :
    wholePart? (n.whole ++ rest) = some (n.whole, rest) := by
  have hrun := digitRun_digits n.whole_digits h
  rcases n.leading with hzero | hhead
  · simp [hzero, wholePart?]
  · obtain ⟨c, cs, hwhole⟩ := List.exists_cons_of_ne_nil n.whole_ne_nil
    rw [hwhole] at hhead hrun ⊢
    have hc : c ≠ '0' := by simpa using hhead
    rw [List.cons_append] at hrun ⊢
    simp [wholePart?, hc, hrun]

theorem readNumber?_numeral (negative : Bool) (h : Separated rest) :
    readNumber? (Numeral.sign negative ++ n.chars ++ rest) =
      some (String.ofList (Numeral.sign negative ++ n.chars), rest) := by
  have hwhole := wholePart?_numeral n (n.noDigitFirst_fractionChars h.noDigitFirst)
  have hfraction := fractionPart?_numeral n h
  have hexponent := exponentPart?_numeral n h
  cases negative with
  | true => simp [readNumber?, Numeral.sign, Numeral.chars, hwhole, hfraction, hexponent]
  | false =>
    obtain ⟨c, cs, hchars, hminus, -⟩ := n.writtenAs_chars.exists_unsigned
    have hcons : n.chars ++ rest = c :: (cs ++ rest) := by rw [hchars, List.cons_append]
    have hparts : n.chars ++ rest = n.whole ++ (n.fractionChars ++ (n.exponentChars ++ rest)) := by
      simp [Numeral.chars]
    rw [← hparts, hcons] at hwhole
    rw [Numeral.sign, if_neg Bool.false_ne_true, List.nil_append, hcons]
    simp [readNumber?, hminus, hwhole, hfraction, hexponent, Numeral.chars]

end Numbers

section Strings

theorem hexValue?_hexDigit {k : Nat} (hk : k < 16) :
    Decimal.hexValue? (Text.hexDigit k) = some k := by
  decide +revert

theorem fourDigits?_hexPadded {k : Nat} (hk : k < 0x10000) (rest : List Char) :
    fourDigits? (Text.hexPadded 4 k ++ rest) = some (k, rest) := by
  have hdigit (j : Nat) := hexValue?_hexDigit (Nat.mod_lt j (by decide : 0 < 16))
  have hvalue : ((k / 16 / 16 / 16 % 16 * 16 + k / 16 / 16 % 16) * 16 + k / 16 % 16) * 16 + k % 16 =
      k := by omega
  simp [Text.hexPadded, fourDigits?, hdigit, hvalue]

theorem numberEscape_toNat (c : Char) (rest : List Char) :
    numberEscape c.toNat rest = (c, 0) := by
  have hvalid : c.toNat < 0xd800 ∨ 0xdfff < c.toNat := c.valid.imp id And.left
  have hhigh : isHighHalf c.toNat = false := by
    simp only [isHighHalf, Bool.and_eq_false_iff, decide_eq_false_iff_not]
    omega
  have hlow : isLowHalf c.toNat = false := by
    simp only [isLowHalf, Bool.and_eq_false_iff, decide_eq_false_iff_not]
    omega
  simp [numberEscape, hhigh, hlow]

theorem length_hexPadded (width k : Nat) : (Text.hexPadded width k).length = width := by
  induction width generalizing k with
  | zero => rfl
  | succ width ih => rw [Text.hexPadded, List.length_append, ih, List.length_singleton]

theorem readString?_skip (cs read more : List Char) :
    readString? cs.length read (cs ++ more) = readString? 0 read more := by
  induction cs with
  | nil => rfl
  | cons c cs ih => rw [List.length_cons, List.cons_append, readString?, ih]

theorem readString?_numberEscape {c : Char} (hc : c.toNat < 0x10000) (read more : List Char) :
    readString? 0 read ('\\' :: 'u' :: (Text.hexPadded 4 c.toNat ++ more)) =
      readString? 0 (c :: read) more := by
  have hdigits := fourDigits?_hexPadded hc more
  have hescape := numberEscape_toNat c more
  have hskip := readString?_skip ('u' :: Text.hexPadded 4 c.toNat) (c :: read) more
  rw [List.length_cons, length_hexPadded, List.cons_append] at hskip
  rw [readString?, if_neg (by decide), if_pos (by decide)]
  simp [hdigits, hescape, hskip]

theorem readString?_escapeChar (c : Char) (read more : List Char) :
    readString? 0 read (escapeChar c ++ more) = readString? 0 (c :: read) more := by
  by_cases hquote : c = '"'
  · subst hquote
    simp [escapeChar, readString?, letterEscape?]
  by_cases hslash : c = '\\'
  · subst hslash
    simp [escapeChar, readString?, letterEscape?]
  by_cases hline : c = '\n'
  · subst hline
    simp [escapeChar, readString?, letterEscape?]
  by_cases hreturn : c = '\r'
  · subst hreturn
    simp [escapeChar, readString?, letterEscape?]
  by_cases htab : c = '\t'
  · subst htab
    simp [escapeChar, readString?, letterEscape?]
  unfold escapeChar
  rw [if_neg (by simp [hquote, hslash]), if_neg (by simpa using hline),
    if_neg (by simpa using hreturn), if_neg (by simpa using htab)]
  split_ifs with hmarked
  · rw [List.cons_append, List.cons_append]
    refine readString?_numberEscape ?_ read more
    simp only [Bool.or_eq_true, decide_eq_true_eq, beq_iff_eq] at hmarked
    rcases hmarked with ((((hcontrol | rfl) | rfl) | rfl) | rfl) | rfl
    · omega
    all_goals decide
  · have hvisible : ¬c.toNat < 0x20 := by
      intro h
      exact hmarked (by simp [h])
    simp [readString?, hquote, hslash, hvisible]

theorem readString?_escaped (cs read rest : List Char) :
    readString? 0 read (cs.flatMap escapeChar ++ '"' :: rest) =
      some (String.ofList (read.reverse ++ cs), rest) := by
  induction cs generalizing read with
  | nil => simp [readString?]
  | cons c cs ih =>
    rw [List.flatMap_cons, List.append_assoc, readString?_escapeChar, ih]
    simp

end Strings

section Tokens

mutual

/-- The tokens of a value. -/
def tokensOf : Json → List Token
  | .array items => .openArray :: (itemTokens items ++ [.closeArray])
  | .object members => .openObject :: (memberTokens members ++ [.closeObject])
  | j => [.leaf j]

/-- The tokens of items, with commas between. -/
def itemTokens : List Json → List Token
  | [] => []
  | [j] => j.tokensOf
  | j :: js => j.tokensOf ++ .comma :: itemTokens js

/-- The tokens of members, with commas between. -/
def memberTokens : List (String × Json) → List Token
  | [] => []
  | [(k, j)] => .leaf (.string k) :: .colon :: j.tokensOf
  | (k, j) :: rest => .leaf (.string k) :: .colon :: (j.tokensOf ++ .comma :: memberTokens rest)

end

/-- A text that is a numeral, after a sign if there is one. -/
def IsNumber (text : String) : Prop :=
  ∃ (negative : Bool) (n : Numeral), text.toList = Numeral.sign negative ++ n.chars

mutual

/-- Every number of a value is a numeral, and no key of an object stands there twice. -/
def Readable : Json → Prop
  | .number text => IsNumber text
  | .array items => ReadableItems items
  | .object members => (members.map Prod.fst).Nodup ∧ ReadableMembers members
  | _ => True

/-- All items can be read. -/
def ReadableItems : List Json → Prop
  | [] => True
  | j :: js => j.Readable ∧ ReadableItems js

/-- The values of all members can be read. -/
def ReadableMembers : List (String × Json) → Prop
  | [] => True
  | (_, j) :: rest => j.Readable ∧ ReadableMembers rest

end

/-- The first text is cut into the tokens when it stands in front of the second. -/
structure Cuts (cs : List Char) (ts : List Token) (rest : List Char) : Prop where
  /-- No token is made of nothing. -/
  length_le : ts.length ≤ cs.length
  tokensFrom_eq : ∀ fuel, tokensFrom (ts.length + fuel) (cs ++ rest) = ts ++ tokensFrom fuel rest

variable {c : Char} {cs ds rest : List Char} {t : Token} {ts us : List Token}

theorem tokensFrom_nil (fuel : Nat) : tokensFrom fuel [] = [] := by
  cases fuel with
  | zero => rfl
  | succ fuel => rfl

theorem Cuts.nil : Cuts [] [] rest := ⟨Nat.le_refl _, fun fuel => by simp⟩

theorem Cuts.append (hcs : Cuts cs ts (ds ++ rest)) (hds : Cuts ds us rest) :
    Cuts (cs ++ ds) (ts ++ us) rest := by
  constructor
  · rw [List.length_append, List.length_append]
    exact Nat.add_le_add hcs.length_le hds.length_le
  · intro fuel
    rw [List.length_append, Nat.add_assoc, List.append_assoc, hcs.tokensFrom_eq, hds.tokensFrom_eq,
      List.append_assoc]

theorem Cuts.single (hc : isBlank c = false) (h : nextToken? c (cs ++ rest) = some (t, rest)) :
    Cuts (c :: cs) [t] rest := by
  constructor
  · simp
  · intro fuel
    rw [List.length_singleton, Nat.add_comm, List.cons_append, tokensFrom, hc, h]
    rfl

theorem Cuts.mark (hc : isBlank c = false) (h : mark? c = some t) : Cuts [c] [t] rest := by
  apply Cuts.single hc
  rw [nextToken?, h, List.nil_append]

theorem Cuts.cons_mark (hc : isBlank c = false) (h : mark? c = some t) (hcs : Cuts cs ts rest) :
    Cuts (c :: cs) (t :: ts) rest := (Cuts.mark hc h).append hcs

theorem cuts_quote (s : String) : Cuts (quote s) [.leaf (.string s)] rest := by
  apply Cuts.single rfl
  have hread := readString?_escaped s.toList [] rest
  simp [nextToken?, mark?, hread]

theorem mark?_of_isDigit (hc : c.isDigit) : mark? c = none := by
  unfold mark?
  split
  case h_7 => rfl
  all_goals cases hc

theorem isBlank_of_isDigit (hc : c.isDigit) : isBlank c = false := by
  rw [Bool.eq_false_iff]
  intro hblank
  simp only [isBlank, Bool.or_eq_true, beq_iff_eq] at hblank
  rcases hblank with ((rfl | rfl) | rfl) | rfl <;> cases hc

theorem cuts_number {text : String} (h : IsNumber text) (hrest : Separated rest) :
    Cuts text.toList [.leaf (.number text)] rest := by
  obtain ⟨negative, n, htext⟩ := h
  have hread := readNumber?_numeral n negative hrest
  rw [← htext, String.ofList_toList] at hread
  cases negative with
  | true =>
    have hcons : text.toList = '-' :: n.chars := htext
    rw [hcons] at hread ⊢
    rw [List.cons_append] at hread
    apply Cuts.single rfl
    simp [nextToken?, mark?, hread]
  | false =>
    obtain ⟨d, ds, hchars, hd⟩ := n.writtenAs_chars.exists_cons
    have hcons : text.toList = d :: ds := htext.trans hchars
    rw [hcons] at hread ⊢
    rw [List.cons_append] at hread
    apply Cuts.single (isBlank_of_isDigit hd)
    have hquote : d ≠ '"' := by
      rintro rfl
      cases hd
    simp [nextToken?, mark?_of_isDigit hd, hquote, hd, hread]

theorem cuts_null : Cuts "null".toList [.leaf .null] rest := by
  have hchars : "null".toList = ['n', 'u', 'l', 'l'] := rfl
  rw [hchars]
  apply Cuts.single rfl
  simp [nextToken?, mark?, word?]

theorem cuts_bool (b : Bool) : Cuts (toString b).toList [.leaf (.bool b)] rest := by
  cases b with
  | false =>
    have hchars : (toString false).toList = ['f', 'a', 'l', 's', 'e'] := rfl
    rw [hchars]
    apply Cuts.single rfl
    simp [nextToken?, mark?, word?]
  | true =>
    have hchars : (toString true).toList = ['t', 'r', 'u', 'e'] := rfl
    rw [hchars]
    apply Cuts.single rfl
    simp [nextToken?, mark?, word?]

mutual

/-- The text of a value is cut into the tokens of the value. -/
theorem cuts_compact : ∀ j : Json, j.Readable → ∀ rest : List Char, Separated rest →
    Cuts j.compactChars j.tokensOf rest
  | .null, _, _, _ => cuts_null
  | .bool b, _, _, _ => cuts_bool b
  | .number _, hj, _, hrest => by
    unfold Readable at hj
    exact cuts_number hj hrest
  | .string s, _, _, _ => cuts_quote s
  | .array items, hj, rest, _ => by
    unfold Readable at hj
    have hitems := cuts_items items hj (']' :: rest) (separated_cons (by decide))
    exact .cons_mark rfl rfl (hitems.append (.mark rfl rfl))
  | .object members, hj, rest, _ => by
    unfold Readable at hj
    have hmembers := cuts_members members hj.2 ('\x7d' :: rest) (separated_cons (by decide))
    exact .cons_mark rfl rfl (hmembers.append (.mark rfl rfl))

theorem cuts_items : ∀ js : List Json, ReadableItems js → ∀ rest : List Char, Separated rest →
    Cuts (compactItems js) (itemTokens js) rest
  | [], _, _, _ => .nil
  | [j], hjs, rest, hrest => by
    unfold ReadableItems at hjs
    exact cuts_compact j hjs.1 rest hrest
  | j :: k :: js, hjs, rest, hrest => by
    unfold ReadableItems at hjs
    have hj := cuts_compact j hjs.1 (',' :: (compactItems (k :: js) ++ rest))
      (separated_cons (by decide))
    exact hj.append (.cons_mark rfl rfl (cuts_items (k :: js) hjs.2 rest hrest))

theorem cuts_members : ∀ ms : List (String × Json), ReadableMembers ms → ∀ rest : List Char,
    Separated rest → Cuts (compactMembers ms) (memberTokens ms) rest
  | [], _, _, _ => .nil
  | [(key, j)], hms, rest, hrest => by
    unfold ReadableMembers at hms
    exact (cuts_quote key).append (.cons_mark rfl rfl (cuts_compact j hms.1 rest hrest))
  | (key, j) :: m :: ms, hms, rest, hrest => by
    unfold ReadableMembers at hms
    have hj := cuts_compact j hms.1 (',' :: (compactMembers (m :: ms) ++ rest))
      (separated_cons (by decide))
    have hmore := cuts_members (m :: ms) hms.2 rest hrest
    exact (cuts_quote key).append (.cons_mark rfl rfl (hj.append (.cons_mark rfl rfl hmore)))

end

theorem tokens_compact {j : Json} (hj : j.Readable) : tokens j.compactChars = j.tokensOf := by
  have hcuts := cuts_compact j hj [] separated_nil
  have hfuel := hcuts.tokensFrom_eq (j.compactChars.length - j.tokensOf.length)
  rw [Nat.add_sub_cancel' hcuts.length_le, List.append_nil] at hfuel
  rw [tokens, hfuel, tokensFrom_nil, List.append_nil]

end Tokens

theorem insertMember_of_fresh {α : Type} {key : String} {members : List (String × α)} (value : α)
    (h : key ∉ members.map Prod.fst) :
    insertMember key value members = members ++ [(key, value)] := by
  induction members with
  | nil => rfl
  | cons m members ih =>
    rw [List.map_cons, List.mem_cons, not_or] at h
    have hkey : (m.1 == key) = false := beq_eq_false_iff_ne.mpr (Ne.symm h.1)
    simp [insertMember, hkey, ih h.2]

theorem fresh_of_nodup {α : Type} {key : String} {value : α} {before after : List (String × α)}
    (h : ((before ++ (key, value) :: after).map Prod.fst).Nodup) : key ∉ before.map Prod.fst := by
  rw [List.map_append, List.map_cons] at h
  exact fun hkey => (List.nodup_append.mp h).2.2 key hkey key List.mem_cons_self rfl

section Levels

mutual

/-- How deep arrays and objects nest in a value. -/
def nesting : Json → Nat
  | .array items => itemsNesting items + 1
  | .object members => membersNesting members + 1
  | _ => 0

/-- How deep arrays and objects nest in items. -/
def itemsNesting : List Json → Nat
  | [] => 0
  | j :: js => max j.nesting (itemsNesting js)

/-- How deep arrays and objects nest in the values of members. -/
def membersNesting : List (String × Json) → Nat
  | [] => 0
  | (_, j) :: rest => max j.nesting (membersNesting rest)

end

/-- The answer once a value is complete: the value itself, or what follows from putting it into the
innermost level. -/
def deliver (levels : List Level) (j : Json) (ts : List Token) : Option Json :=
  match levels with
  | [] => some j
  | level :: outer => readFrom .more (level.add j :: outer) ts

variable {expected : Expected} {levels : List Level} {items : List Json}
  {members : List (String × Json)} {key k : String} {j : Json} {ts : List Token}

def Expected.TakesValue (expected : Expected) : Prop := expected = .value ∨ expected = .firstItem

def Expected.TakesKey (expected : Expected) : Prop := expected = .key ∨ expected = .firstKey

theorem readFrom_leaf (he : expected.TakesValue) :
    readFrom expected levels (.leaf j :: ts) = deliver levels j ts := by
  rcases he with rfl | rfl <;> cases levels <;> rfl

theorem readFrom_openArray (he : expected.TakesValue) (h : levels.length < depthLimit) :
    readFrom expected levels (.openArray :: ts) = readFrom .firstItem (.array [] :: levels) ts := by
  rcases he with rfl | rfl <;> simp [readFrom, h]

theorem readFrom_openObject (he : expected.TakesValue) (h : levels.length < depthLimit) :
    readFrom expected levels (.openObject :: ts) =
      readFrom .firstKey (.object [] "" :: levels) ts := by
  rcases he with rfl | rfl <;> simp [readFrom, h]

theorem readFrom_key (he : expected.TakesKey) :
    readFrom expected (.object members key :: levels) (.leaf (.string k) :: .colon :: ts) =
      readFrom .value (.object members k :: levels) ts := by
  rcases he with rfl | rfl <;> simp [readFrom]

theorem readFrom_comma_array :
    readFrom .more (.array items :: levels) (.comma :: ts) =
      readFrom .value (.array items :: levels) ts := by
  simp [readFrom]

theorem readFrom_comma_object :
    readFrom .more (.object members key :: levels) (.comma :: ts) =
      readFrom .key (.object members key :: levels) ts := by
  simp [readFrom]

theorem readFrom_closeArray (he : expected = .more ∨ expected = .firstItem) :
    readFrom expected (.array items :: levels) (.closeArray :: ts) =
      deliver levels (.array items.reverse) ts := by
  rcases he with rfl | rfl <;> cases levels <;> rfl

theorem readFrom_closeObject (he : expected = .more ∨ expected = .firstKey) :
    readFrom expected (.object members key :: levels) (.closeObject :: ts) =
      deliver levels (.object members) ts := by
  rcases he with rfl | rfl <;> cases levels <;> rfl

mutual

/-- From the tokens of a value the value is read again, wherever a value may stand. -/
theorem readFrom_tokensOf : ∀ j : Json, j.Readable →
    ∀ (expected : Expected) (levels : List Level) (ts : List Token), expected.TakesValue →
      levels.length + j.nesting ≤ depthLimit →
      readFrom expected levels (j.tokensOf ++ ts) = deliver levels j ts
  | .null, _, _, _, _, he, _ => readFrom_leaf he
  | .bool _, _, _, _, _, he, _ => readFrom_leaf he
  | .number _, _, _, _, _, he, _ => readFrom_leaf he
  | .string _, _, _, _, _, he, _ => readFrom_leaf he
  | .array items, hj, expected, levels, ts, he, hdepth => by
    unfold Readable at hj
    unfold nesting at hdepth
    rw [tokensOf, List.cons_append, List.append_assoc, readFrom_openArray he (by omega)]
    cases items with
    | nil => exact readFrom_closeArray (.inr rfl)
    | cons j js =>
      exact readFrom_itemTokens (j :: js) hj .firstItem [] levels ts (List.cons_ne_nil _ _)
        (.inr rfl) (by omega)
  | .object members, hj, expected, levels, ts, he, hdepth => by
    unfold Readable at hj
    unfold nesting at hdepth
    rw [tokensOf, List.cons_append, List.append_assoc, readFrom_openObject he (by omega)]
    cases members with
    | nil => exact readFrom_closeObject (.inr rfl)
    | cons m ms =>
      exact readFrom_memberTokens (m :: ms) hj.2 .firstKey [] "" levels ts (List.cons_ne_nil _ _)
        hj.1 (.inr rfl) (by omega)

/-- From the tokens of items, and the end of their array, the array is read. -/
theorem readFrom_itemTokens : ∀ js : List Json, ReadableItems js →
    ∀ (expected : Expected) (items : List Json) (levels : List Level) (ts : List Token),
      js ≠ [] → expected.TakesValue → levels.length + 1 + itemsNesting js ≤ depthLimit →
      readFrom expected (.array items :: levels) (itemTokens js ++ .closeArray :: ts) =
        deliver levels (.array (items.reverse ++ js)) ts
  | [], _, _, _, _, _, hne, _, _ => absurd rfl hne
  | [j], hjs, expected, items, levels, ts, _, he, hdepth => by
    unfold ReadableItems at hjs
    unfold itemsNesting at hdepth
    have hj := readFrom_tokensOf j hjs.1 expected (.array items :: levels) (.closeArray :: ts) he
      (by simp only [List.length_cons]; omega)
    rw [itemTokens, hj, deliver, Level.add, readFrom_closeArray (.inl rfl), List.reverse_cons]
  | j :: k :: js, hjs, expected, items, levels, ts, _, he, hdepth => by
    unfold ReadableItems at hjs
    unfold itemsNesting at hdepth
    have hj := readFrom_tokensOf j hjs.1 expected (.array items :: levels)
      (.comma :: (itemTokens (k :: js) ++ .closeArray :: ts)) he
      (by simp only [List.length_cons]; omega)
    have hjs := readFrom_itemTokens (k :: js) hjs.2 .value (j :: items) levels ts
      (List.cons_ne_nil _ _) (.inl rfl) (by omega)
    have htokens : itemTokens (j :: k :: js) = j.tokensOf ++ .comma :: itemTokens (k :: js) := rfl
    rw [htokens, List.append_assoc, List.cons_append, hj, deliver, Level.add, readFrom_comma_array,
      hjs, List.reverse_cons, List.append_assoc, List.singleton_append]

/-- From the tokens of members, and the end of their object, the object is read. -/
theorem readFrom_memberTokens : ∀ ms : List (String × Json), ReadableMembers ms →
    ∀ (expected : Expected) (before : List (String × Json)) (key : String) (levels : List Level)
      (ts : List Token),
      ms ≠ [] → ((before ++ ms).map Prod.fst).Nodup → expected.TakesKey →
      levels.length + 1 + membersNesting ms ≤ depthLimit →
      readFrom expected (.object before key :: levels) (memberTokens ms ++ .closeObject :: ts) =
        deliver levels (.object (before ++ ms)) ts
  | [], _, _, _, _, _, _, hne, _, _, _ => absurd rfl hne
  | [(k, j)], hms, expected, before, key, levels, ts, _, hkeys, he, hdepth => by
    unfold ReadableMembers at hms
    unfold membersNesting at hdepth
    have hj := readFrom_tokensOf j hms.1 .value (.object before k :: levels) (.closeObject :: ts)
      (.inl rfl) (by simp only [List.length_cons]; omega)
    rw [memberTokens, List.cons_append, List.cons_append, readFrom_key he, hj, deliver, Level.add,
      insertMember_of_fresh j (fresh_of_nodup hkeys), readFrom_closeObject (.inl rfl)]
  | (k, j) :: m :: ms, hms, expected, before, key, levels, ts, _, hkeys, he, hdepth => by
    unfold ReadableMembers at hms
    unfold membersNesting at hdepth
    have hj := readFrom_tokensOf j hms.1 .value (.object before k :: levels)
      (.comma :: (memberTokens (m :: ms) ++ .closeObject :: ts)) (.inl rfl)
      (by simp only [List.length_cons]; omega)
    have hms := readFrom_memberTokens (m :: ms) hms.2 .key (before ++ [(k, j)]) k levels ts
      (List.cons_ne_nil _ _) (by rwa [List.append_assoc, List.singleton_append]) (.inl rfl)
      (by omega)
    have htokens : memberTokens ((k, j) :: m :: ms) =
      .leaf (.string k) :: .colon :: (j.tokensOf ++ .comma :: memberTokens (m :: ms)) := rfl
    rw [htokens, List.cons_append, List.cons_append, List.append_assoc, List.cons_append,
      readFrom_key he, hj, deliver, Level.add, insertMember_of_fresh j (fresh_of_nodup hkeys),
      readFrom_comma_object, hms, List.append_assoc, List.singleton_append]

end

/-- Reading inverts writing. -/
theorem parse?_compact {j : Json} (hj : j.Readable) (hdepth : j.nesting ≤ depthLimit) :
    parse? j.compactChars = some j := by
  have hread := readFrom_tokensOf j hj .value [] [] (.inl rfl) (by simpa using hdepth)
  rw [List.append_nil] at hread
  rw [parse?, tokens_compact hj, hread, deliver]

theorem parseBytes?_compact {j : Json} (hj : j.Readable) (hdepth : j.nesting ≤ depthLimit) :
    parseBytes? (Text.encode j.compact.toList) = some j := by
  rw [parseBytes?, Text.decodeLossy_encode, compact, String.toList_ofList, parse?_compact hj hdepth]

end Levels

end Savefile.Json
