import FlowFacts.Proofs.TreeText

/-!
# Reading names and operands

Names, literals and operands are read back whatever text follows them, as long as that text cannot
be taken for more of the same. Words that are no operands are refused.

Main results:

* `Source.term_text`, `Source.terms_text`: operands and lists of operands.
* `Source.term_name`: a word that is no operand.
-/

namespace FlowFacts.Source

open Reader

variable {name : String} {r s : List Char} {c : Char}

/-! ## Names and literals -/

theorem IsName.head (h : IsName name) :
    ∃ c rest, name.toList = c :: rest ∧ isIdentChar c = true := by
  obtain ⟨c, rest, hname⟩ := List.exists_cons_of_ne_nil h.1
  exact ⟨c, rest, hname, h.2 c (by simp [hname])⟩

theorem not_isBlank_of_isIdentChar (h : isIdentChar c = true) : isBlank c = false ∧ c ≠ ';' := by
  constructor
  · cases hblank : isBlank c with
    | false => rfl
    | true =>
      have hcases : c = ' ' ∨ c = '\t' ∨ c = '\n' ∨ c = '\r' := by
        simpa [isBlank, isLineEnd, or_assoc] using hblank
      rcases hcases with rfl | rfl | rfl | rfl <;> revert h <;> decide
  · rintro rfl
    revert h
    decide

theorem IsName.skipLayout (h : IsName name) (r : List Char) :
    skipLayout false (name.toList ++ r) = name.toList ++ r := by
  obtain ⟨c, rest, hname, hc⟩ := h.head
  obtain ⟨hblank, hcomment⟩ := not_isBlank_of_isIdentChar hc
  rw [hname, List.cons_append, skipLayout_cons hblank hcomment]

theorem IsName.next? (h : IsName name) (r : List Char) :
    ∃ c, next? (name.toList ++ r) = some c ∧ c ∈ name.toList.head? ∧ isIdentChar c = true := by
  obtain ⟨c, rest, hname, hc⟩ := h.head
  refine ⟨c, ?_, by simp [hname], hc⟩
  rw [Source.next?, h.skipLayout, hname]
  rfl

theorem ident_name (h : IsName name) (hr : Stops isIdentChar r) :
    ident (name.toList ++ r) = some (name, r) := by
  rw [ident, map_apply, span1_append h.1 h.2 hr]
  simp

theorem valueName_name (h : IsName name) (hr : Stops isIdentChar r) :
    valueName ('%' :: (name.toList ++ r)) = some (name, r) := by
  unfold valueName token
  rw [skipLayout_cons (by decide) (by decide), seqRight_apply]
  exact ident_name h hr

theorem globalName_name (h : IsName name) (hr : Stops isIdentChar r) :
    globalName ('@' :: (name.toList ++ r)) = some (name, r) := by
  unfold globalName token
  rw [skipLayout_cons (by decide) (by decide), seqRight_apply]
  exact ident_name h hr

theorem labelDef_name (h : IsName label) (r : List Char) :
    labelDef (label.toList ++ ':' :: r) = some (label, r) := by
  unfold labelDef token
  rw [h.skipLayout, seqLeft_apply, ident_name h (by simp; decide)]
  rfl

/-- A character that a token does not start with. -/
theorem char_bind_of_next? {α : Type} {p : Reader α} (h : next? s ≠ some c) :
    token (Reader.char c *> p) s = none := by
  rw [token, seqRight_apply]
  unfold next? at h
  cases hs : skipLayout false s with
  | nil => rfl
  | cons d t =>
    rw [hs] at h
    have hd : ¬ d = c := by simpa using h
    simp [Reader.char, hd]

theorem integer_literal {literal : String} (h : IsLiteral literal) (hr : Stops Char.isDigit r) :
    integer (literal.toList ++ r) = some (literal, r) := by
  obtain ⟨digits, hne, hdigits, hliteral⟩ := h
  obtain ⟨c, rest, rfl⟩ := List.exists_cons_of_ne_nil hne
  have hc := hdigits c List.mem_cons_self
  have hread : span1 Char.isDigit (c :: rest ++ r) = some (c :: rest, r) :=
    span1_append hne hdigits hr
  have hident : isIdentChar c = true := by simp [isIdentChar, Char.isAlphanum, hc]
  obtain ⟨hblank, hcomment⟩ := not_isBlank_of_isIdentChar hident
  have hsign : c ≠ '-' := by
    rintro rfl
    revert hc
    decide
  unfold integer token
  rcases hliteral with hliteral | hliteral
  · rw [hliteral, List.cons_append, skipLayout_cons hblank hcomment, bind_apply, ← List.cons_append]
    have hoption : Reader.option (Reader.char '-') (c :: rest ++ r) =
        some (none, c :: rest ++ r) := by
      simp [Reader.option, Reader.char, hsign]
    rw [hoption, Option.bind_some, bind_apply, hread]
    show some (String.ofList (c :: rest), r) = some (literal, r)
    rw [← hliteral, String.ofList_toList]
  · rw [hliteral, List.cons_append, skipLayout_cons (by decide) (by decide), bind_apply]
    have hoption : Reader.option (Reader.char '-') ('-' :: (c :: rest ++ r)) =
        some (some (), c :: rest ++ r) := by
      simp [Reader.option, Reader.char]
    rw [hoption, Option.bind_some, bind_apply, hread]
    show some (String.ofList ('-' :: c :: rest), r) = some (literal, r)
    rw [← hliteral, String.ofList_toList]

theorem integer_of_next? (hsign : next? s ≠ some '-') (hdigit : ∀ c ∈ next? s, c.isDigit = false) :
    integer s = none := by
  unfold integer token next? at *
  cases hs : skipLayout false s with
  | nil => rfl
  | cons c t =>
    rw [hs] at hsign hdigit
    have hc : ¬ c = '-' := by simpa using hsign
    have hstops : Stops Char.isDigit (c :: t) := hdigit
    have hoption : Reader.option (Reader.char '-') (c :: t) = some (none, c :: t) := by
      simp [Reader.option, Reader.char, hc]
    rw [bind_apply, hoption, Option.bind_some, bind_apply, span1_of_stops hstops]
    rfl

/-- A whole word is read from exactly that word. -/
theorem wholeWord_name {w : String} (h : IsName name) (hw : IsName w)
    (hr : Stops isIdentChar r) :
    wholeWord w (name.toList ++ r) = if name = w then some ((), r) else none := by
  unfold wholeWord token
  rw [h.skipLayout, seqLeft_apply, Reader.word]
  split_ifs with heq
  · rw [heq, dropWord_append]
    simp [notAhead, span1_of_stops hr]
  · cases hdrop : dropWord w.toList (name.toList ++ r) with
    | none => rfl
    | some t =>
      -- A longer name goes on behind the word, and a shorter one is not reached.
      have hsplit := eq_append_of_dropWord hdrop
      cases hspan : span1 isIdentChar t with
      | some x => simp [notAhead, hspan]
      | none =>
        refine absurd (String.toList_inj.1 ?_) heq
        have ht : Stops isIdentChar t := by
          intro c hc
          by_contra hident
          cases t with
          | nil => simp at hc
          | cons d t =>
            simp only [List.head?_cons, Option.mem_some_iff] at hc
            subst hc
            simp [span1, hident] at hspan
        rw [← takeWhile_append h.2 hr, hsplit, takeWhile_append hw.2 ht]

/-! ## Operands -/

theorem skipsLayout_valueName : SkipsLayout valueName := .token _

theorem valueName_of_next? (h : next? s ≠ some '%') : valueName s = none := char_bind_of_next? h

theorem globalName_of_next? (h : next? s ≠ some '@') : globalName s = none := char_bind_of_next? h

/-- What an operand can be, apart from the look at what follows. -/
def plainTerm : Reader Term :=
  (.value <$> valueName) <|> (.global <$> globalName) <|> (.integer <$> integer) <|>
    (wholeWord "null" *> pure .null) <|> (wholeWord "undef" *> pure .undefined)

theorem term_eq : term = Reader.notAhead (valueName *> symbol '=') *> plainTerm := rfl

theorem plainTerm_apply (s : List Char) :
    plainTerm s = ((valueName s).map fun x => (.value x.1, x.2)).or
      (((globalName s).map fun x => (.global x.1, x.2)).or
        (((integer s).map fun x => (.integer x.1, x.2)).or
          (((wholeWord "null" s).map fun x => (.null, x.2)).or
            ((wholeWord "undef" s).map fun x => (.undefined, x.2))))) := by
  unfold plainTerm
  simp only [orElse_apply, map_apply, seqRight_apply, pure_apply, Option.map_eq_bind]
  rfl

theorem skipsLayout_plainTerm : SkipsLayout plainTerm := fun s => by
  have hword : ∀ w, SkipsLayout (wholeWord w) := fun w => .token _
  have hglobal : SkipsLayout globalName := .token _
  have hinteger : SkipsLayout integer := .token _
  simp only [plainTerm_apply, skipsLayout_valueName s, hglobal s, hinteger s, hword _ s]

theorem skipsLayout_term : SkipsLayout term :=
  (skipsLayout_valueName.seqRight _).notAhead_bind skipsLayout_plainTerm

/-- Where no result name stands, an operand is read without further ado. -/
theorem term_of_not_result (h : (valueName *> symbol '=') s = none) : term s = plainTerm s := by
  rw [term_eq, seqRight_apply]
  simp [notAhead, h]

theorem term_of_next? (h : next? s ≠ some '%') : term s = plainTerm s := by
  refine term_of_not_result ?_
  rw [seqRight_apply, valueName_of_next? h]
  rfl

/-- A word is an operand only if it is one of two words or starts like a number. -/
theorem plainTerm_name (h : IsName name) (hr : Stops isIdentChar r)
    (hdigit : ∀ c ∈ name.toList.head?, c.isDigit = false) :
    plainTerm (name.toList ++ r) =
      if name = "null" then some (.null, r)
      else if name = "undef" then some (.undefined, r) else none := by
  obtain ⟨c, hnext, hhead, hc⟩ := h.next? r
  have hne : ∀ d, isIdentChar d = false → next? (name.toList ++ r) ≠ some d := by
    rintro d hd heq
    rw [hnext] at heq
    cases heq
    simp [hc] at hd
  have hinteger : integer (name.toList ++ r) = none := by
    refine integer_of_next? (hne _ (by decide)) fun d hd => ?_
    rw [hnext] at hd
    cases hd
    exact hdigit c hhead
  rw [plainTerm_apply, valueName_of_next? (hne _ (by decide)),
    globalName_of_next? (hne _ (by decide)), hinteger, wholeWord_name h (by decide) hr,
    wholeWord_name h (by decide) hr]
  split_ifs <;> rfl

theorem IsName.next?_ne (h : IsName name) (hc : isIdentChar c = false) (r : List Char) :
    Source.next? (name.toList ++ r) ≠ some c := by
  obtain ⟨d, hnext, -, hd⟩ := h.next? r
  rintro heq
  rw [hnext] at heq
  cases heq
  simp [hd] at hc

/-- A word that does not look like an operand is none. -/
theorem term_name (h : IsName name) (hr : Stops isIdentChar r) (hterm : ¬ StartsTerm name) :
    term (name.toList ++ r) = none := by
  have hdigit : ∀ c ∈ name.toList.head?, c.isDigit = false := by
    intro c hc
    by_contra hd
    exact hterm (.inl ⟨c, hc, by simpa using hd⟩)
  rw [term_of_next? (h.next?_ne (by decide) r), plainTerm_name h hr hdigit,
    if_neg fun heq => hterm (.inr (.inl heq)), if_neg fun heq => hterm (.inr (.inr heq))]

/-- The name of a result is no operand. -/
theorem term_result (h : IsName name) (r : List Char) :
    term ('%' :: (name.toList ++ (' ' :: '=' :: r))) = none := by
  have hresult : (valueName *> symbol '=') ('%' :: (name.toList ++ (' ' :: '=' :: r))) =
      some ((), r) := by
    rw [seqRight_apply, valueName_name h (by simp; decide)]
    show symbol '=' (' ' :: '=' :: r) = some ((), r)
    rw [(skipsLayout_symbol '=').blank (by decide), symbol_cons (by decide) (by decide)]
  rw [term_eq, seqRight_apply]
  simp [notAhead, hresult]

/-- No operand starts with this character. -/
theorem term_of_next?_none (hnext : next? s = some c) (hfirst : c ∉ ['%', '@', '-', 'n', 'u'])
    (hdigit : c.isDigit = false) : term s = none := by
  have hne : ∀ d ∈ ['%', '@', '-', 'n', 'u'], next? s ≠ some d := by
    rintro d hd heq
    rw [hnext] at heq
    cases heq
    exact hfirst hd
  have hword : ∀ w : String, ∀ d ∈ w.toList.head?, d ∈ ['%', '@', '-', 'n', 'u'] →
      wholeWord w s = none := by
    intro w d hhead hd
    obtain ⟨rest, hw⟩ : ∃ rest, w.toList = d :: rest := by
      cases hw : w.toList with
      | nil => simp [hw] at hhead
      | cons x rest =>
        rw [hw] at hhead
        cases hhead
        exact ⟨rest, rfl⟩
    unfold next? at hnext
    obtain ⟨t, ht⟩ := List.head?_eq_some_iff.1 hnext
    have hdc : ¬ d = c := fun heq => hfirst (heq ▸ hd)
    unfold wholeWord token
    rw [ht, seqLeft_apply, Reader.word, hw]
    simp [dropWord, hdc]
  have hinteger : integer s = none := by
    refine integer_of_next? (hne _ (by decide)) fun d hd => ?_
    rw [hnext] at hd
    cases hd
    exact hdigit
  rw [term_of_next? (hne _ (by decide)), plainTerm_apply, valueName_of_next? (hne _ (by decide)),
    globalName_of_next? (hne _ (by decide)), hinteger, hword "null" 'n' (by decide) (by decide),
    hword "undef" 'u' (by decide) (by decide)]
  rfl

theorem stops_isDigit (h : Stops isIdentChar r) : Stops Char.isDigit r := fun c hc => by
  have hident := h c hc
  simp only [isIdentChar, Char.isAlphanum, Bool.or_eq_false_iff] at hident
  exact hident.1.1.2

theorem stops_isAlphanum (h : Stops isIdentChar r) : Stops Char.isAlphanum r := fun c hc => by
  have hident := h c hc
  simp only [isIdentChar, Bool.or_eq_false_iff] at hident
  exact hident.1.1

/-- The first character of a literal. -/
theorem IsLiteral.next? {literal : String} (h : IsLiteral literal) (r : List Char) :
    ∃ c, Source.next? (literal.toList ++ r) = some c ∧ (c = '-' ∨ c.isDigit = true) := by
  obtain ⟨digits, hne, hdigits, hliteral⟩ := h
  obtain ⟨c, rest, rfl⟩ := List.exists_cons_of_ne_nil hne
  have hc := hdigits c List.mem_cons_self
  have hident : isIdentChar c = true := by simp [isIdentChar, Char.isAlphanum, hc]
  obtain ⟨hblank, hcomment⟩ := not_isBlank_of_isIdentChar hident
  rcases hliteral with hliteral | hliteral
  · exact ⟨c, by rw [hliteral]; exact next?_cons hblank hcomment, .inr hc⟩
  · exact ⟨'-', by rw [hliteral]; exact next?_cons (by decide) (by decide), .inl rfl⟩

/-- An operand is read back in front of whatever ends a name and is no equality sign. -/
theorem term_text {t : Term} (h : t.Printable) (hr : Follows r) :
    term (t.text.toList ++ r) = some (t, r) := by
  cases t with
  | value name =>
    have htext : (Term.value name).text.toList ++ r = '%' :: (name.toList ++ r) := by
      simp [Term.text]
    have hname := valueName_name h hr.stops
    rw [htext, term_of_not_result, plainTerm_apply, hname]
    · rfl
    · rw [seqRight_apply, hname]
      exact symbol_of_next? hr.next
  | global name =>
    have htext : (Term.global name).text.toList ++ r = '@' :: (name.toList ++ r) := by
      simp [Term.text]
    have hnext : next? ('@' :: (name.toList ++ r)) ≠ some '%' := by
      rw [next?_cons (by decide) (by decide)]
      decide
    rw [htext, term_of_next? hnext, plainTerm_apply, valueName_of_next? hnext,
      globalName_name h hr.stops]
    rfl
  | integer literal =>
    obtain ⟨c, hnext, hc⟩ := IsLiteral.next? h r
    have hne : ∀ d : Char, d ≠ '-' → d.isDigit = false →
        next? (literal.toList ++ r) ≠ some d := by
      rintro d hsign hdigit heq
      rw [hnext] at heq
      cases heq
      rcases hc with hc | hc
      · exact hsign hc
      · simp [hc] at hdigit
    rw [show (Term.integer literal).text = literal from rfl,
      term_of_next? (hne _ (by decide) (by decide)), plainTerm_apply,
      valueName_of_next? (hne _ (by decide) (by decide)),
      globalName_of_next? (hne _ (by decide) (by decide)),
      integer_literal h (stops_isDigit hr.stops)]
    rfl
  | null =>
    have hname : IsName "null" := by decide
    have hdigit : ∀ c ∈ "null".toList.head?, c.isDigit = false := by
      rintro c ⟨⟩
      decide
    rw [show Term.null.text = "null" from rfl, term_of_next? (hname.next?_ne (by decide) r),
      plainTerm_name hname hr.stops hdigit]
    rfl
  | undefined =>
    have hname : IsName "undef" := by decide
    have hdigit : ∀ c ∈ "undef".toList.head?, c.isDigit = false := by
      rintro c ⟨⟩
      decide
    rw [show Term.undefined.text = "undef" from rfl, term_of_next? (hname.next?_ne (by decide) r),
      plainTerm_name hname hr.stops hdigit]
    rfl

theorem terms_of_sepBy1 {ts : List Term} (h : sepBy1 term (symbol ',') s = some (ts, r)) :
    terms s = some (ts, r) := by
  unfold terms
  rw [bind_apply]
  simp [Reader.option, h]

theorem terms_of_none (h : term s = none) : terms s = some ([], s) := by
  unfold terms sepBy1
  rw [bind_apply]
  simp [Reader.option, bind_of_none h]

theorem terms_text {ts : List Term} (hne : ts ≠ []) (h : ∀ t ∈ ts, t.Printable) (hr : Follows r)
    (hcomma : next? r ≠ some ',') :
    sepBy1 term (symbol ',') ((", ".intercalate (ts.map Term.text)).toList ++ r) = some (ts, r) :=
  sepBy1_comma hne skipsLayout_term (fun t ht _ hr => term_text (h t ht) hr) hr hcomma

end FlowFacts.Source
