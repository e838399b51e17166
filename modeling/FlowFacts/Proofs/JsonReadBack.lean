import FlowFacts.Json.Parser
import FlowFacts.Json.Printer
import FlowFacts.Proofs.ReaderLaws

/-!
# Reading back written JSON

The writer puts no blanks between tokens, and the reader takes as many digits as there are. So a
value is read back from its text in front of everything that cannot continue a number, as are commas
and the characters that close a list or an object.

Main results:

* `Quoted.text?_ofText`: a string denotes the text that it was written for.
* `JsonText.numeral_text`: a number is read back, be it an integer (`Numeral.legible_ofInt`) or a
  binary number (`Binary64.legible_numeral`).
* `JsonText.parse?_compact`: every value is read back.
-/

namespace FlowFacts

open Reader

theorem Reader.char_cons (c : Char) (s : List Char) : char c (c :: s) = some ((), s) := by
  simp [char]

theorem Reader.char_of_ne {c d : Char} (h : c ≠ d) (s : List Char) : char d (c :: s) = none := by
  simp [char, h]

theorem Reader.word_of_ne {w : String} {c d : Char} {ds : List Char} (hw : w.toList = d :: ds)
    (h : c ≠ d) (s : List Char) : word w (c :: s) = none := by
  simp [word, hw, dropWord, h.symm]

/-! ## Strings -/

namespace Quoted

theorem unit?_hexDigit : ∀ n < 0x20,
    unit? '0' '0' (hexDigit (n / 16)) (hexDigit (n % 16)) = some n := by
  decide

/-- A character is written as a backslash and a letter, as a code unit or as itself. -/
theorem escape_cases (c : Char) :
    (∃ letter, unescape? letter = some c ∧ escape c = ['\\', letter]) ∨
    (∃ x y, unit? '0' '0' x y = some c.toNat ∧ c.toNat < 0x20 ∧
      escape c = ['\\', 'u', '0', '0', x, y]) ∨
    (c ≠ '"' ∧ c ≠ '\\' ∧ ¬c.toNat < 0x20 ∧ escape c = [c]) := by
  unfold escape
  split_ifs with hquote hbackslash hb hf hn hr ht hcontrol
  · exact .inl ⟨'"', by rw [hquote]; rfl, rfl⟩
  · exact .inl ⟨'\\', by rw [hbackslash]; rfl, rfl⟩
  · exact .inl ⟨'b', by rw [hb]; rfl, rfl⟩
  · exact .inl ⟨'f', by rw [hf]; rfl, rfl⟩
  · exact .inl ⟨'n', by rw [hn]; rfl, rfl⟩
  · exact .inl ⟨'r', by rw [hr]; rfl, rfl⟩
  · exact .inl ⟨'t', by rw [ht]; rfl, rfl⟩
  · exact .inr (.inl ⟨_, _, unit?_hexDigit c.toNat hcontrol, hcontrol, rfl⟩)
  · exact .inr (.inr ⟨hquote, hbackslash, hcontrol, rfl⟩)

theorem ne_u_of_unescape? {letter c : Char} (h : unescape? letter = some c) : letter ≠ 'u' := by
  rintro rfl
  cases h

/-- A written character is passed as a whole. -/
theorem scan_escape (c : Char) (done rest : List Char) :
    scan done (escape c ++ rest) = scan ((escape c).reverse ++ done) rest := by
  rcases escape_cases c with ⟨letter, hletter, heq⟩ | ⟨x, y, hunit, -, heq⟩ |
    ⟨hquote, hbackslash, hcontrol, heq⟩ <;> rw [heq]
  · have hu := ne_u_of_unescape? hletter
    simp [scan, hu, hletter]
  · simp [scan, hunit]
  · simp [scan, hbackslash, hcontrol]

theorem scan_flatMap_escape (cs done rest : List Char) :
    scan done (cs.flatMap escape ++ '"' :: rest) =
      some (done.reverse ++ cs.flatMap escape, rest) := by
  induction cs generalizing done with
  | nil => exact congrArg (fun cs => some (cs, rest)) (List.append_nil _).symm
  | cons c cs ih =>
    rw [List.flatMap_cons, List.append_assoc, scan_escape, ih]
    simp

theorem read_quote (text : String) (rest : List Char) :
    read ((Json.quote text).toList ++ rest) = some (ofText text, rest) := by
  have htext : (Json.quote text).toList ++ rest =
      '"' :: (text.toList.flatMap escape ++ '"' :: rest) := by simp [Json.quote, ofText]
  have hscan := scan_flatMap_escape text.toList [] rest
  rw [htext]
  unfold read
  rw [bind_of_some (char_cons _ _), bind_of_some hscan]
  rfl

/-- A written character denotes itself. -/
theorem decode?_escape (c : Char) (done rest : List Char) :
    decode? done (escape c ++ rest) = decode? (c :: done) rest := by
  rcases escape_cases c with ⟨letter, hletter, heq⟩ | ⟨x, y, hunit, hcontrol, heq⟩ |
    ⟨hquote, hbackslash, hcontrol, heq⟩ <;> rw [heq]
  · have hu := ne_u_of_unescape? hletter
    simp [decode?, hu, hletter]
  · have hleading : isLeading c.toNat = false := by
      rw [isLeading, decide_eq_false (by omega), Bool.false_and]
    have htrailing : isTrailing c.toNat = false := by
      rw [isTrailing, decide_eq_false (by omega), Bool.false_and]
    simp [decode?, hunit, hleading, htrailing]
  · simp [decode?, hbackslash]

/-- A written text denotes itself. -/
@[simp]
theorem text?_ofText (text : String) : (ofText text).text? = some text := by
  have hdecode (cs done : List Char) :
      decode? done (cs.flatMap escape) = some (done.reverse ++ cs) := by
    induction cs generalizing done with
    | nil => exact congrArg some (List.append_nil _).symm
    | cons c cs ih =>
      rw [List.flatMap_cons, decode?_escape, ih]
      simp
  simp [text?, ofText, hdecode]

end Quoted

/-! ## Numbers -/

/-- The leading digit of a positive number is not a zero. -/
theorem head?_toDigits_ne {n : Nat} (hn : n ≠ 0) : (Nat.toDigits 10 n).head? ≠ some '0' := by
  induction n using Nat.strongRecOn with
  | ind n ih =>
    rcases Nat.lt_or_ge n 10 with hlt | hge
    · rw [Nat.toDigits_of_lt_base hlt]
      have hdigit : ∀ n < 10, n ≠ 0 → [n.digitChar].head? ≠ some '0' := by decide
      exact hdigit n hlt hn
    · rw [Nat.toDigits_of_base_le (by decide) hge,
        List.head?_append_of_ne_nil _ Nat.toDigits_ne_nil]
      exact ih (n / 10) (by omega) (by omega)

theorem isDigit_toDigits {n : Nat} {c : Char} (h : c ∈ Nat.toDigits 10 n) : c.isDigit = true :=
  Nat.isDigit_of_mem_toDigits (by decide) (by decide) h

theorem Numeral.digitsValue_toDigits (n : Nat) : digitsValue (Nat.toDigits 10 n) = n :=
  Nat.ofDigitChars_ten_toDigits

/-- The numbers that can be read: digits without superfluous zeros in front. -/
structure Numeral.Legible (x : Numeral) : Prop where
  /-- The whole part has digits. -/
  whole_ne_nil : x.whole ≠ []
  /-- The whole part has only digits. -/
  isDigit_whole : ∀ c ∈ x.whole, c.isDigit = true
  /-- Only zero itself starts with a zero. -/
  leading_zero : x.whole.head? = some '0' → x.whole = ['0']
  /-- The fraction has only digits. -/
  isDigit_fraction : ∀ c ∈ x.fraction, c.isDigit = true

theorem Numeral.legible_ofInt (n : Int) : (ofInt n).Legible where
  whole_ne_nil := Nat.toDigits_ne_nil
  isDigit_whole _ := isDigit_toDigits
  leading_zero h := by
    by_cases hn : n.natAbs = 0
    · simp [ofInt, hn]
    · exact absurd h (head?_toDigits_ne hn)
  isDigit_fraction c h := by cases h

/-- The digits of a number may have a point behind any of them. -/
theorem Numeral.Legible.split {n k : Nat} (hn : n ≠ 0) (hk : k ≠ 0) (negative : Bool)
    (e : Option Int) :
    Legible ⟨negative, (Nat.toDigits 10 n).take k, (Nat.toDigits 10 n).drop k, e⟩ where
  whole_ne_nil := by simp [hk]
  isDigit_whole _ hc := isDigit_toDigits (List.mem_of_mem_take hc)
  leading_zero h := by
    rw [List.head?_take, if_neg hk] at h
    exact absurd h (head?_toDigits_ne hn)
  isDigit_fraction _ hc := isDigit_toDigits (List.mem_of_mem_drop hc)

theorem Binary64.legible_numeral (x : Binary64) : x.numeral.Legible := by
  unfold numeral
  dsimp only
  generalize shortest x.units = d
  have hzero (n : Int) : ∀ c ∈ List.replicate n.toNat '0', c.isDigit = true := by
    intro c hc
    rw [List.eq_of_mem_replicate hc]
    rfl
  split_ifs with hdigits hplain hexponent hpoint
  · exact ⟨by simp, by simp, fun _ => rfl, by simp⟩
  · refine ⟨by simp, ?_, fun h => absurd h ?_, by simp⟩
    · exact List.forall_mem_append.2 ⟨fun _ => isDigit_toDigits, hzero _⟩
    · rw [List.head?_append_of_ne_nil _ Nat.toDigits_ne_nil]
      exact head?_toDigits_ne hdigits
  · exact .split hdigits (by omega) _ _
  · refine ⟨by simp, by simp, fun _ => rfl, ?_⟩
    exact List.forall_mem_append.2 ⟨hzero _, fun _ => isDigit_toDigits⟩
  · exact .split hdigits (by omega) _ _

namespace Numeral

/-- How a fraction is written. -/
def fractionSpelling (fraction : List Char) : List Char :=
  if fraction.isEmpty then [] else '.' :: fraction

/-- How a power of ten is written. -/
def powerSpelling : Option Int → List Char
  | none => []
  | some e => 'e' :: (if e < 0 then '-' else '+') :: Nat.toDigits 10 e.natAbs

theorem toList_text (x : Numeral) :
    x.text.toList = (if x.negative then ['-'] else []) ++
      (x.whole ++ (fractionSpelling x.fraction ++ powerSpelling x.exponent)) := by
  have hsign : (if x.negative then "-" else "").toList = if x.negative then ['-'] else [] := by
    split_ifs <;> rfl
  have hfraction : (if x.fraction.isEmpty then "" else "." ++ String.ofList x.fraction).toList =
      fractionSpelling x.fraction := by
    unfold fractionSpelling
    split_ifs <;> simp
  unfold text
  rw [String.toList_append, String.toList_append, String.toList_append, hsign, hfraction,
    String.toList_ofList, List.append_assoc, List.append_assoc]
  congr 3
  cases x.exponent with
  | none => rfl
  | some e =>
    show ((if e < 0 then "e-" else "e+") ++ toString e.natAbs).toList = _
    rw [String.toList_append, Nat.toString_eq_repr, Nat.toList_repr, powerSpelling]
    split_ifs <;> rfl

end Numeral

namespace JsonText

/-- Whether a character can continue a number. -/
def isNumeric (c : Char) : Bool := c.isDigit || c = '.' || c = 'e' || c = 'E'

theorem isNumeric_eq_false {c : Char} :
    isNumeric c = false ↔ c.isDigit = false ∧ c ≠ '.' ∧ c ≠ 'e' ∧ c ≠ 'E' := by
  simp [isNumeric, and_assoc]

theorem wholeDigits_append {x : Numeral} (h : x.Legible) {rest : List Char}
    (hrest : Stops Char.isDigit rest) : wholeDigits (x.whole ++ rest) = some (x.whole, rest) := by
  have hspan := span1_append h.whole_ne_nil h.isDigit_whole hrest
  by_cases hzero : x.whole.head? = some '0'
  · rw [h.leading_zero hzero]
    rfl
  · obtain ⟨c, cs, heq⟩ := List.exists_cons_of_ne_nil h.whole_ne_nil
    rw [heq] at hzero hspan ⊢
    have hc : c ≠ '0' := by simpa using hzero
    simp only [List.cons_append] at hspan ⊢
    unfold wholeDigits
    split
    · rename_i heq'
      cases heq'
      exact absurd rfl hc
    · exact hspan

theorem fractionDigits_append {fraction rest : List Char} (h : ∀ c ∈ fraction, c.isDigit = true)
    (hrest : Stops (fun c => c.isDigit || c = '.') rest) :
    fractionDigits (Numeral.fractionSpelling fraction ++ rest) = some (fraction, rest) := by
  cases fraction with
  | nil =>
    cases rest with
    | nil => rfl
    | cons c rest =>
      have hc : c ≠ '.' := by simpa using (Bool.or_eq_false_iff.1 (stops_cons.1 hrest)).2
      simp [Numeral.fractionSpelling, fractionDigits, hc]
  | cons c fraction =>
    refine span1_append (by simp) h fun d hd => ?_
    exact (Bool.or_eq_false_iff.1 (hrest d hd)).1

theorem power_append (e : Int) {rest : List Char} (hrest : Stops Char.isDigit rest) :
    power ((if e < 0 then '-' else '+') :: (Nat.toDigits 10 e.natAbs ++ rest)) =
      some (e, rest) := by
  have hspan : span1 Char.isDigit (Nat.toDigits 10 e.natAbs ++ rest) =
      some (Nat.toDigits 10 e.natAbs, rest) :=
    span1_append Nat.toDigits_ne_nil (fun _ => isDigit_toDigits) hrest
  unfold power
  split_ifs with he
  · have hvalue : -(e.natAbs : Int) = e := by omega
    rw [bind_of_some (a := true) (r := Nat.toDigits 10 e.natAbs ++ rest) rfl, bind_of_some hspan,
      Numeral.digitsValue_toDigits]
    show some (-(e.natAbs : Int), rest) = some (e, rest)
    rw [hvalue]
  · have hvalue : (e.natAbs : Int) = e := by omega
    rw [bind_of_some (a := false) (r := Nat.toDigits 10 e.natAbs ++ rest) rfl, bind_of_some hspan,
      Numeral.digitsValue_toDigits]
    show some ((e.natAbs : Int), rest) = some (e, rest)
    rw [hvalue]

theorem exponent_append (e : Option Int) {rest : List Char} (hrest : Stops isNumeric rest) :
    exponent (Numeral.powerSpelling e ++ rest) = some (e, rest) := by
  cases e with
  | none =>
    cases rest with
    | nil => rfl
    | cons c rest =>
      obtain ⟨-, -, he, hE⟩ := isNumeric_eq_false.1 (stops_cons.1 hrest)
      simp [Numeral.powerSpelling, exponent, he, hE]
  | some e =>
    have hdigit : Stops Char.isDigit rest := fun c hc => (isNumeric_eq_false.1 (hrest c hc)).1
    show (power (_ :: (Nat.toDigits 10 e.natAbs ++ rest))).map _ = _
    rw [power_append e hdigit]
    rfl

/-- A number is read back from its text. -/
theorem numeral_text {x : Numeral} (h : x.Legible) {rest : List Char}
    (hrest : Stops isNumeric rest) : numeral (x.text.toList ++ rest) = some (x, rest) := by
  have hpower : Stops (fun c => c.isDigit || c = '.')
      (Numeral.powerSpelling x.exponent ++ rest) := by
    cases x.exponent with
    | none =>
      intro c hc
      obtain ⟨hdigit, hpoint, -⟩ := isNumeric_eq_false.1 (hrest c hc)
      simp [hdigit, hpoint]
    | some e => exact stops_cons.2 (by decide)
  have hfraction : Stops Char.isDigit (Numeral.fractionSpelling x.fraction ++
      (Numeral.powerSpelling x.exponent ++ rest)) := by
    cases x.fraction with
    | nil => exact fun c hc => (Bool.or_eq_false_iff.1 (hpower c hc)).1
    | cons c fraction => exact stops_cons.2 (by decide)
  have hsign (t : List Char) : Reader.option (char '-')
      ((if x.negative then ['-'] else []) ++ (x.whole ++ t)) =
        some (if x.negative then some () else none, x.whole ++ t) := by
    split_ifs
    · rfl
    · obtain ⟨c, cs, heq⟩ := List.exists_cons_of_ne_nil h.whole_ne_nil
      have hc : c ≠ '-' := by
        rintro rfl
        exact absurd (h.isDigit_whole '-' (heq ▸ List.mem_cons_self)) (by decide)
      rw [heq]
      simp [Reader.option, char_of_ne hc]
  rw [Numeral.toList_text]
  simp only [List.append_assoc]
  unfold numeral
  rw [bind_of_some (hsign _), bind_of_some (wholeDigits_append h hfraction),
    bind_of_some (fractionDigits_append h.isDigit_fraction hpower),
    bind_of_some (exponent_append x.exponent hrest)]
  cases x with
  | mk negative whole fraction exponent => cases negative <;> rfl

/-- The text of a number starts with a digit or a minus sign, and with nothing else. -/
theorem head_text {x : Numeral} (h : x.Legible) :
    ∃ c t, x.text.toList = c :: t ∧
      ∀ others : List Char, others.all (fun d => !d.isDigit && d != '-') = true → c ∉ others := by
  have hothers {c : Char} (hc : c.isDigit = true ∨ c = '-') (others : List Char)
      (hall : others.all (fun d => !d.isDigit && d != '-') = true) : c ∉ others := by
    intro hmem
    have hother := List.all_eq_true.1 hall c hmem
    rcases hc with hc | rfl
    · simp [hc] at hother
    · simp at hother
  rw [Numeral.toList_text]
  split_ifs
  · exact ⟨'-', _, rfl, hothers (.inr rfl)⟩
  · obtain ⟨c, cs, heq⟩ := List.exists_cons_of_ne_nil h.whole_ne_nil
    have hc := h.isDigit_whole c (heq ▸ List.mem_cons_self)
    exact ⟨c, _, by rw [heq]; rfl, hothers (.inl hc)⟩

end JsonText

/-! ## Texts of lists and objects -/

namespace Json

/-- Induction over values, with the items of lists and the fields of objects. -/
@[elab_as_elim]
theorem inductionOn {motive : Json → Prop} (j : Json) (null : motive .null)
    (bool : ∀ b, motive (.bool b)) (int : ∀ n, motive (.int n)) (binary : ∀ x, motive (.binary x))
    (str : ∀ s, motive (.str s)) (arr : ∀ items, (∀ x ∈ items, motive x) → motive (.arr items))
    (obj : ∀ fields, (∀ field ∈ fields, motive field.2) → motive (.obj fields)) : motive j :=
  @Json.rec motive (fun items => ∀ x ∈ items, motive x)
    (fun fields => ∀ field ∈ fields, motive field.2) (fun field => motive field.2)
    null bool int binary str arr obj
    (by simp) (fun _ _ hx hxs => List.forall_mem_cons.2 ⟨hx, hxs⟩)
    (by simp) (fun _ _ hx hxs => List.forall_mem_cons.2 ⟨hx, hxs⟩) (fun _ _ h => h) j

theorem compactItems_eq (items : List Json) :
    compactItems items = ",".intercalate (items.map compact) := by
  induction items with
  | nil => rfl
  | cons x items ih =>
    cases items with
    | nil => simp [compactItems]
    | cons y items =>
      rw [compactItems, ih]
      · simp only [List.map_cons, String.intercalate_cons_cons]
      · simp

/-- The text of a field. -/
def compactField (field : String × Json) : String := quote field.1 ++ ":" ++ compact field.2

theorem compactFields_eq (fields : List (String × Json)) :
    compactFields fields = ",".intercalate (fields.map compactField) := by
  induction fields with
  | nil => rfl
  | cons x fields ih =>
    cases fields with
    | nil => simp [compactFields, compactField]
    | cons y fields =>
      rw [compactFields, ih]
      · simp only [List.map_cons, String.intercalate_cons_cons, compactField]
      · simp

end Json

namespace JsonText

/-! ## Lists of items -/

theorem dropWhile_isSpace {c : Char} (hc : isSpace c = false) (s : List Char) :
    (c :: s).dropWhile isSpace = c :: s := by
  simp [hc]

section

variable {α β : Type} {close : Char} {item : Reader α} {text : β → String} {value : β → α}

theorem stops_behind_item (hnumeric : isNumeric close = false) (text : β → String) (xs : List β)
    (rest : List Char) :
    Stops isNumeric ((xs.flatMap fun x => ",".toList ++ (text x).toList) ++ close :: rest) := by
  cases xs with
  | nil => exact stops_cons.2 hnumeric
  | cons x xs => exact stops_cons.2 (by decide)

/-- Items behind commas are read back, if each is read back in front of a character that cannot
    continue a number. -/
theorem itemsTail_append (hspace : isSpace close = false) (hcomma : close ≠ ',')
    (hnumeric : isNumeric close = false) {xs : List β}
    (hread : ∀ x ∈ xs, ∀ r, Stops isNumeric r → item ((text x).toList ++ r) = some (value x, r))
    {bound : Nat} (hbound : xs.length < bound) (rest : List Char) :
    itemsTail close item bound
      ((xs.flatMap fun x => ",".toList ++ (text x).toList) ++ close :: rest) =
      some (xs.map value, rest) := by
  induction xs generalizing bound with
  | nil =>
    cases bound with
    | zero => cases hbound
    | succ bound => simp [itemsTail, dropWhile_isSpace hspace]
  | cons x xs ih =>
    rw [List.forall_mem_cons] at hread
    cases bound with
    | zero => cases hbound
    | succ bound =>
      have hx := hread.1 _ (stops_behind_item hnumeric text xs rest)
      have hxs := ih hread.2 (Nat.lt_of_succ_lt_succ hbound)
      have hhead : ((x :: xs).flatMap fun x => ",".toList ++ (text x).toList) ++ close :: rest =
          ',' :: ((text x).toList ++
            ((xs.flatMap fun x => ",".toList ++ (text x).toList) ++ close :: rest)) := by simp
      rw [hhead, itemsTail, dropWhile_isSpace (by decide)]
      simp only [hcomma.symm, if_false, if_true, hx, hxs]
      rfl

/-- A list is read back from the texts of its items with commas between them. The length of the text
    is a bound for each item and for their number. -/
theorem items_intercalate (hspace : isSpace close = false) (hcomma : close ≠ ',')
    (hnumeric : isNumeric close = false) {xs : List β} {bound : Nat}
    (hhead : ∀ x ∈ xs, ∃ c t, (text x).toList = c :: t ∧ isSpace c = false ∧ c ≠ close)
    (hread : ∀ x ∈ xs, (text x).toList.length ≤ bound →
      ∀ r, Stops isNumeric r → item ((text x).toList ++ r) = some (value x, r))
    (hbound : (",".intercalate (xs.map text)).toList.length ≤ bound) (rest : List Char) :
    items close item bound ((",".intercalate (xs.map text)).toList ++ close :: rest) =
      some (xs.map value, rest) := by
  have hread' : ∀ x ∈ xs, ∀ r, Stops isNumeric r →
      item ((text x).toList ++ r) = some (value x, r) := fun x hx =>
    hread x hx ((length_le_length_intercalate_of_mem text hx _).trans hbound)
  have hcount : xs.length ≤ bound := by
    refine (length_le_length_intercalate (fun x hx => ?_) _).trans hbound
    obtain ⟨c, t, htext, -⟩ := hhead x hx
    rw [htext]
    exact List.cons_ne_nil c t
  cases xs with
  | nil => simp [items, dropWhile_isSpace hspace]
  | cons x xs =>
    rw [List.forall_mem_cons] at hread' hhead
    obtain ⟨c, t, htext, hc, hclose⟩ := hhead.1
    have hx := hread'.1 _ (stops_behind_item hnumeric text xs rest)
    have hxs := itemsTail_append hspace hcomma hnumeric hread'.2 hcount rest
    rw [toList_intercalate_cons, List.append_assoc]
    rw [htext, List.cons_append] at hx ⊢
    rw [items, dropWhile_isSpace hc]
    simp only [hclose, if_false, hx, hxs]
    rfl

end

/-! ## Values -/

theorem space_cons {c : Char} (hc : isSpace c = false) (s : List Char) :
    space (c :: s) = some ((), c :: s) := by
  rw [space, dropWhile_isSpace hc]

theorem read_succ {c : Char} (hc : isSpace c = false) (bound : Nat) (s : List Char) :
    read (bound + 1) (c :: s) =
      ((arr <$> (char '[' *> items ']' (read bound) bound)) <|>
        (obj <$> (char '\x7b' *> items '\x7d' (field (read bound)) bound)) <|> scalar)
        (c :: s) := by
  rw [read, seqRight_apply, space_cons hc]
  rfl

theorem read_bracket (bound : Nat) {s rest : List Char} {xs : List JsonText}
    (h : items ']' (read bound) bound s = some (xs, rest)) :
    read (bound + 1) ('[' :: s) = some (arr xs, rest) := by
  rw [read_succ (by decide), orElse_apply, map_apply, seqRight_apply, char_cons,
    Option.bind_some, h]
  rfl

theorem read_brace (bound : Nat) {s rest : List Char} {fields : List (Quoted × JsonText)}
    (h : items '\x7d' (field (read bound)) bound s = some (fields, rest)) :
    read (bound + 1) ('\x7b' :: s) = some (obj fields, rest) := by
  rw [read_succ (by decide), orElse_apply, map_apply, seqRight_apply, char_of_ne (by decide),
    orElse_apply, map_apply, seqRight_apply, char_cons, Option.bind_some, h]
  rfl

/-- What can be in front of a value that is neither a list nor an object. -/
def LeadsScalar (s : List Char) : Prop :=
  ∃ c t, s = c :: t ∧ isSpace c = false ∧ c ∉ ['[', ']', '\x7b']

theorem read_of_scalar {s rest : List Char} {value : JsonText} (hs : LeadsScalar s)
    (h : scalar s = some (value, rest)) (bound : Nat) :
    read (bound + 1) s = some (value, rest) := by
  obtain ⟨c, t, rfl, hc, hne⟩ := hs
  simp only [List.mem_cons, not_or] at hne
  rw [read_succ hc, orElse_apply, map_apply, seqRight_apply, char_of_ne hne.1,
    orElse_apply, map_apply, seqRight_apply, char_of_ne hne.2.2.1]
  exact h

/-- A value that is not a word is a string or a number. -/
theorem scalar_of_ne {c : Char} (h : c ∉ ['n', 't', 'f']) (s : List Char) :
    scalar (c :: s) = ((str <$> Quoted.read) <|> (number <$> numeral)) (c :: s) := by
  simp only [List.mem_cons, List.not_mem_nil, or_false, not_or] at h
  unfold scalar
  rw [orElse_apply, seqRight_apply, word_of_ne rfl h.1, orElse_apply, seqRight_apply,
    word_of_ne rfl h.2.1, orElse_apply, seqRight_apply, word_of_ne rfl h.2.2]
  rfl

theorem scalar_quote (text : String) (rest : List Char) :
    scalar ((Json.quote text).toList ++ rest) = some (str (.ofText text), rest) := by
  have hread := Quoted.read_quote text rest
  have hquote : (Json.quote text).toList ++ rest =
      '"' :: ((Quoted.ofText text).spelling ++ '"' :: rest) := by simp [Json.quote]
  rw [hquote] at hread ⊢
  rw [scalar_of_ne (by decide), orElse_apply, map_apply, hread]
  rfl

theorem scalar_numeral {x : Numeral} (h : x.Legible) {rest : List Char}
    (hrest : Stops isNumeric rest) : scalar (x.text.toList ++ rest) = some (number x, rest) := by
  have hread := numeral_text h hrest
  obtain ⟨c, t, htext, hc⟩ := head_text h
  rw [htext, List.cons_append] at hread ⊢
  have hquote : c ≠ '"' := List.ne_of_not_mem_cons (hc ['"'] rfl)
  have hnone : Quoted.read (c :: (t ++ rest)) = none := bind_of_none (char_of_ne hquote _)
  rw [scalar_of_ne (hc _ rfl), orElse_apply, map_apply, map_apply, hnone, hread]
  rfl

theorem leadsScalar_quote (text : String) : LeadsScalar (Json.quote text).toList :=
  ⟨'"', (Quoted.ofText text).spelling ++ ['"'], by simp [Json.quote], by decide, by decide⟩

theorem leadsScalar_numeral {x : Numeral} (h : x.Legible) : LeadsScalar x.text.toList := by
  obtain ⟨c, t, htext, hc⟩ := head_text h
  refine ⟨c, t, htext, ?_, hc _ rfl⟩
  simpa [isSpace, and_assoc] using hc [' ', '\t', '\n', '\r'] rfl

theorem LeadsScalar.append {s : List Char} (h : LeadsScalar s) (rest : List Char) :
    LeadsScalar (s ++ rest) := by
  obtain ⟨c, t, rfl, hc⟩ := h
  exact ⟨c, t ++ rest, rfl, hc⟩

theorem text_ofInt (n : Int) : (Numeral.ofInt n).text = toString n := by
  rw [← String.toList_inj, Numeral.toList_text]
  cases n with
  | ofNat n =>
    show _ = (toString n).toList
    rw [Nat.toString_eq_repr, Nat.toList_repr]
    simp [Numeral.ofInt, Numeral.fractionSpelling, Numeral.powerSpelling]
  | negSucc n =>
    show _ = ("-" ++ toString (n + 1)).toList
    rw [String.toList_append, Nat.toString_eq_repr, Nat.toList_repr]
    simp [Numeral.ofInt, Numeral.fractionSpelling, Numeral.powerSpelling]

/-- A field is read back, if its value is. -/
theorem field_append {value : Reader JsonText} {entry : String × Json} {v : JsonText}
    {rest : List Char} (hvalue : value (entry.2.compact.toList ++ rest) = some (v, rest)) :
    field value ((Json.compactField entry).toList ++ rest) = some ((.ofText entry.1, v), rest) := by
  obtain ⟨c, t, hquote, hc, -⟩ := leadsScalar_quote entry.1
  have hread := Quoted.read_quote entry.1 (':' :: (entry.2.compact.toList ++ rest))
  have htext : (Json.compactField entry).toList ++ rest =
      (Json.quote entry.1).toList ++ ':' :: (entry.2.compact.toList ++ rest) := by
    simp [Json.compactField]
  rw [htext]
  rw [hquote, List.cons_append] at hread ⊢
  unfold field
  rw [bind_of_some (space_cons hc _), bind_of_some hread, bind_of_some (space_cons (by decide) _),
    bind_of_some (char_cons _ _), bind_of_some hvalue]
  rfl

theorem ofItems_eq (items : List Json) : ofItems items = items.map ofJson := by
  induction items with
  | nil => rfl
  | cons x items ih => rw [ofItems, ih, List.map_cons]

theorem ofFields_eq (fields : List (String × Json)) :
    ofFields fields = fields.map fun field => (.ofText field.1, ofJson field.2) := by
  induction fields with
  | nil => rfl
  | cons x fields ih => rw [ofFields, ih, List.map_cons]

/-- A text starts with a character that neither is passed over nor closes a list. -/
theorem head_compact (j : Json) :
    ∃ c t, j.compact.toList = c :: t ∧ isSpace c = false ∧ c ≠ ']' := by
  have hscalar {s : List Char} (h : LeadsScalar s) :
      ∃ c t, s = c :: t ∧ isSpace c = false ∧ c ≠ ']' := by
    obtain ⟨c, t, rfl, hc, hne⟩ := h
    exact ⟨c, t, rfl, hc, List.ne_of_not_mem_cons (List.not_mem_of_not_mem_cons hne)⟩
  cases j with
  | null => exact ⟨'n', _, rfl, by decide, by decide⟩
  | bool b => cases b <;> exact ⟨_, _, rfl, by decide, by decide⟩
  | int n =>
    rw [Json.compact, ← text_ofInt]
    exact hscalar (leadsScalar_numeral (Numeral.legible_ofInt n))
  | binary x => exact hscalar (leadsScalar_numeral x.legible_numeral)
  | str s => exact hscalar (leadsScalar_quote s)
  | arr items =>
    exact ⟨'[', (Json.compactItems items ++ "]").toList, by simp [Json.compact], by decide,
      by decide⟩
  | obj fields =>
    exact ⟨'\x7b', (Json.compactFields fields ++ "\x7d").toList, by simp [Json.compact], by decide,
      by decide⟩

theorem exists_bound {j : Json} {bound : Nat} (h : j.compact.toList.length ≤ bound) :
    ∃ b, bound = b + 1 := by
  obtain ⟨c, t, htext, -⟩ := head_compact j
  rw [htext] at h
  exact Nat.exists_eq_add_one.2 (by simp at h; omega)

/-- A value is read back from its text, in front of anything that cannot continue a number. -/
theorem read_compact (j : Json) {bound : Nat} {rest : List Char}
    (hbound : j.compact.toList.length ≤ bound) (hrest : Stops isNumeric rest) :
    read bound (j.compact.toList ++ rest) = some (ofJson j, rest) := by
  obtain ⟨bound, rfl⟩ := exists_bound hbound
  induction j using Json.inductionOn generalizing bound rest with
  | null => exact read_of_scalar ⟨'n', _, rfl, by decide, by decide⟩ rfl bound
  | bool b => cases b <;> exact read_of_scalar ⟨_, _, rfl, by decide, by decide⟩ rfl bound
  | int n =>
    rw [Json.compact, ← text_ofInt]
    exact read_of_scalar ((leadsScalar_numeral (Numeral.legible_ofInt n)).append rest)
      (scalar_numeral (Numeral.legible_ofInt n) hrest) bound
  | binary x =>
    exact read_of_scalar ((leadsScalar_numeral x.legible_numeral).append rest)
      (scalar_numeral x.legible_numeral hrest) bound
  | str s => exact read_of_scalar ((leadsScalar_quote s).append rest) (scalar_quote s rest) bound
  | arr items ih =>
    have htext : (Json.arr items).compact.toList =
        '[' :: ((",".intercalate (items.map Json.compact)).toList ++ [']']) := by
      simp [Json.compact, Json.compactItems_eq]
    have hlength : (",".intercalate (items.map Json.compact)).toList.length ≤ bound := by
      rw [htext, List.length_cons, List.length_append] at hbound
      omega
    rw [htext, ofJson, ofItems_eq, List.cons_append, List.append_assoc]
    refine read_bracket bound (items_intercalate (by decide) (by decide) (by decide)
      (fun x _ => head_compact x) (fun x hx hle r hr => ?_) hlength rest)
    obtain ⟨bound, rfl⟩ := exists_bound hle
    exact ih x hx hr bound hle
  | obj fields ih =>
    have htext : (Json.obj fields).compact.toList =
        '\x7b' :: ((",".intercalate (fields.map Json.compactField)).toList ++ ['\x7d']) := by
      simp [Json.compact, Json.compactFields_eq]
    have hlength : (",".intercalate (fields.map Json.compactField)).toList.length ≤ bound := by
      rw [htext, List.length_cons, List.length_append] at hbound
      omega
    rw [htext, ofJson, ofFields_eq, List.cons_append, List.append_assoc]
    refine read_brace bound (items_intercalate (by decide) (by decide) (by decide)
      (fun x _ => ?_) (fun x hx hle r hr => field_append ?_) hlength rest)
    · exact ⟨'"', (Quoted.ofText x.1).spelling ++ '"' :: ':' :: x.2.compact.toList,
        by simp [Json.compactField, Json.quote], by decide, by decide⟩
    · have hvalue : x.2.compact.toList.length ≤ bound := by
        rw [Json.compactField, String.toList_append, List.length_append] at hle
        omega
      obtain ⟨bound, rfl⟩ := exists_bound hvalue
      exact ih x hx hr bound hvalue

/-- What is written is read back. -/
theorem parse?_compact (j : Json) : parse? j.compact = some (ofJson j) := by
  have hread := read_compact j (Nat.le_refl _) (stops_nil _)
  rw [List.append_nil, String.length_toList] at hread
  rw [parse?, run?, seqLeft_apply, hread]
  rfl

end JsonText

end FlowFacts
