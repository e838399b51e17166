import FlowFacts.Proofs.ReadInstructions

/-!
# Reading texts back

A printable tree is what its text says: `parse?` returns it. Each part is read back whatever text
follows it, as long as that text cannot be taken for more of the same part. So most lemmas here
have a condition on what comes next, and the proofs for larger parts have to establish it.

Main results:

* `Source.labelled_text`, `Source.definition_text`: sections and functions.
* `Source.parse?_text`: whole texts.
-/

namespace FlowFacts.Source

open Reader

variable {name label : String} {r s : List Char} {c : Char}

/-! ## Sections -/

/-- What a section needs behind its last line: no statement, and nothing that could be taken for
    more of the last one. -/
structure Section.EndsBefore (s : Section) (r : List Char) : Prop where
  statement : statement r = none
  last : ∀ st ∈ s.statements.getLast?, st.body.EndsBefore ('\n' :: r)

/-- A line, indented, with the end of the line before it. -/
def indented (line : String) : List Char := '\n' :: ' ' :: ' ' :: line.toList

/-- Lines end where the next one starts, so each line can be taken to start with the end of the
    one before. -/
theorem lines_eq {α : Type} (line : α → String) (items : List α) (r : List Char) :
    '\n' :: ((String.join (items.map fun a => "  " ++ line a ++ "\n")).toList ++ r) =
      (items.flatMap fun a => indented (line a)) ++ '\n' :: r := by
  induction items with
  | nil => simp
  | cons a items ih =>
    simp only [List.map_cons, String.join_cons, List.flatMap_cons, List.append_assoc, ← ih]
    simp [indented]

theorem Section.text_eq (s : Section) (r : List Char) :
    s.text.toList ++ r = s.label.toList ++ ':' ::
      ((s.statements.flatMap fun st => indented st.line) ++ '\n' :: r) := by
  rw [← lines_eq]
  simp [Section.text]

/-- A statement is read back from its line. -/
theorem statement_line {st : Statement} (h : st.Fits Body.Printable)
    (hr : st.body.EndsBefore ('\n' :: r)) :
    statement (indented st.line ++ '\n' :: r) = some (st, st.body.trail.toList ++ '\n' :: r) := by
  have hr := hr.trail
  obtain ⟨c, t, htrail, hc⟩ := st.body.exists_trail r
  unfold indented Statement.line
  rw [List.cons_append, List.cons_append, List.cons_append, String.toList_append,
    List.append_assoc, skipsLayout_statement.blank (by decide),
    skipsLayout_statement.blank (by decide), skipsLayout_statement.blank (by decide), htrail]
  rw [htrail] at hr
  exact statement_text h hc hr

theorem steps_statements {statements : List Statement}
    (h : ∀ st ∈ statements, st.Fits Body.Printable)
    (hlast : ∀ st ∈ statements.getLast?, st.body.EndsBefore ('\n' :: r)) :
    ∃ w, (∀ c ∈ w, isBlank c = true) ∧
      Steps statement statements
        ((statements.flatMap fun st => indented st.line) ++ '\n' :: r) (w ++ r) := by
  induction statements with
  | nil => exact ⟨['\n'], isBlank_newline, .nil _⟩
  | cons st statements ih =>
    rw [List.forall_mem_cons] at h
    cases statements with
    | nil =>
      have hread := statement_line h.1 (hlast st (by simp))
      refine ⟨st.body.trail.toList ++ ['\n'], ?_, ?_⟩
      · exact List.forall_mem_append.2 ⟨st.body.isBlank_trail, isBlank_newline⟩
      · simpa using Steps.cons hread (.nil _)
    | cons next statements =>
      obtain ⟨w, hw, hrest⟩ := ih h.2 (by simpa using hlast)
      obtain ⟨t, ht⟩ : ∃ t,
          ((next :: statements).flatMap fun st => indented st.line) ++ '\n' :: r =
            '\n' :: ' ' :: ' ' :: (next.text.toList ++ (next.body.trail.toList ++ '\n' :: t)) := by
        cases statements <;> simp [indented, Statement.line]
      obtain ⟨c, t', htrail, hc⟩ := next.body.exists_trail t
      have hnext := h.2 next (by simp)
      obtain ⟨op, d, u, hline, hd⟩ := hnext.body.line hc t'
      rw [htrail, Statement.text, String.toList_append, List.append_assoc, hline] at ht
      have hread := statement_line h.1 (endsBefore_statement hnext.result op hd u st.body)
      rw [← ht] at hread
      rw [List.flatMap_cons, List.append_assoc]
      refine ⟨w, hw, .cons hread ?_⟩
      cases hrest with
      | cons hnext hrest =>
        refine .cons ?_ hrest
        rw [skipsLayout_statement.blanks st.body.isBlank_trail, hnext]

theorem labelled_text {s : Section} (h : s.Fits Body.Printable) (hr : s.EndsBefore r) :
    ∃ w, (∀ c ∈ w, isBlank c = true) ∧ labelled (s.text.toList ++ r) = some (s, w ++ r) := by
  obtain ⟨w, hw, hsteps⟩ := steps_statements h.statements hr.last
  have hlength : s.statements.length ≤
      (s.statements.flatMap fun st => indented st.line).length :=
    length_le_length_flatMap (by simp [indented])
  have hend : statement (w ++ r) = none := by
    rw [skipsLayout_statement.blanks hw, hr.statement]
  have hmany := many_eq hsteps hend (by rw [List.length_append]; omega)
  refine ⟨w, hw, ?_⟩
  unfold labelled
  rw [s.text_eq, bind_of_some (labelDef_name h.label _), bind_of_some hmany]
  rfl

/-- A section ends in front of the label of the next one, which must not be taken for an
    operand. -/
theorem Section.endsBefore_label {s : Section} (h : IsName label)
    (hclosed : (∃ st ∈ s.statements.getLast?, st.body.Open) → ¬ StartsTerm label) (r : List Char) :
    s.EndsBefore ('\n' :: (label.toList ++ ':' :: r)) where
  statement := by
    rw [skipsLayout_statement.blank (by decide)]
    unfold Source.statement
    exact bind_of_none (by simp [notAhead, labelDef_name h])
  last st hst := by
    obtain ⟨c, hnext, -, hc⟩ := h.next? (':' :: r)
    have hnext : next? ('\n' :: '\n' :: (label.toList ++ ':' :: r)) = some c := by
      rw [next?_blank (by decide), next?_blank (by decide), hnext]
    have hne : ∀ d : Char, isIdentChar d = false → some c ≠ some d := by
      rintro d hident heq
      cases heq
      simp [hc] at hident
    exact {
      follows := ⟨stops_blank (by decide) _, by rw [hnext]; exact hne _ (by decide)⟩
      comma := by rw [hnext]; exact hne _ (by decide)
      bracket := by rw [hnext]; exact hne _ (by decide)
      closed := fun hopen => by
        rw [skipsLayout_term.blank (by decide), skipsLayout_term.blank (by decide)]
        exact term_name h (by simp; decide) (hclosed ⟨st, hst, hopen⟩)
      noLabel := fun _ => by
        rw [skipsLayout_labelRef.blank (by decide), skipsLayout_labelRef.blank (by decide),
          labelRef_label h] }

/-- A statement starts with a letter or a sigil. -/
theorem statement_of_next? (hnext : next? s = some c) (hident : isIdentChar c = false)
    (hpercent : c ≠ '%') : statement s = none := by
  have hvalue : valueName s = none := valueName_of_next? (by rw [hnext]; simpa using hpercent)
  have hkeyword : ∀ (w : String) (d : Char), d ∈ w.toList.head? → isIdentChar d = true →
      keyword w s = none := by
    intro w d hd hd'
    refine keyword_of_next? hd ?_
    rw [hnext]
    rintro heq
    cases heq
    simp [hd'] at hident
  have hopcode : opcode s = none := by
    obtain ⟨t, ht⟩ := List.head?_eq_some_iff.1 hnext
    have hlower : c.isLower = false := by
      simp only [isIdentChar, Char.isAlphanum, Bool.or_eq_false_iff] at hident
      exact (Bool.or_eq_false_iff.1 hident.1.1.1).2
    unfold opcode token
    rw [ht]
    simp [hlower]
  have hbody : body s = none := by
    rw [body_apply, show phi _ = none from bind_of_none (hkeyword _ 'p' (by decide) (by decide)),
      show condBr _ = none from bind_of_none (hkeyword _ 'b' (by decide) (by decide)),
      show br _ = none from bind_of_none (hkeyword _ 'b' (by decide) (by decide)),
      show switch _ = none from bind_of_none (hkeyword _ 's' (by decide) (by decide)),
      show call _ = none from bind_of_none (hkeyword _ 'c' (by decide) (by decide)),
      show generic _ = none from bind_of_none hopcode]
    rfl
  have hresult : Reader.option (valueName <* symbol '=') s = some (none, s) := by
    simp [Reader.option, seqLeft_apply, hvalue]
  unfold Source.statement
  rw [bind_of_some (a := ()) (by simp [notAhead, labelDef_of_next? hnext hident]; rfl),
    bind_of_some hresult, bind_of_none hbody]

/-- A section ends in front of the closing brace. -/
theorem Section.endsBefore_brace (s : Section) (r : List Char) : s.EndsBefore ('\x7d' :: r) where
  statement := statement_of_next? (next?_cons (by decide) (by decide)) (by decide) (by decide)
  last st _ := by
    have hnext : next? ('\n' :: '\x7d' :: r) = some '\x7d' := by
      rw [next?_blank (by decide), next?_cons (by decide) (by decide)]
    exact {
      follows := ⟨stops_blank (by decide) _, by rw [hnext]; decide⟩
      comma := by rw [hnext]; decide
      bracket := by rw [hnext]; decide
      closed := fun _ => term_of_next?_none hnext (by decide) (by decide)
      noLabel := fun _ => labelRef_of_next? (by rw [hnext]; decide) }

/-! ## Functions and whole texts -/

theorem labelled_brace (r : List Char) : labelled ('\x7d' :: r) = none := by
  exact bind_of_none (labelDef_of_next? (next?_cons (by decide) (by decide)) (by decide))

theorem skipsLayout_labelled : SkipsLayout labelled := (SkipsLayout.token _).bind _

theorem skipsLayout_definition : SkipsLayout definition := (skipsLayout_keyword _).bind _

/-- The sections of a function are read back, up to the end of the line before the brace. -/
theorem sections_text {d : Definition} (h : d.Fits Body.Printable) (r : List Char) :
    ∃ t, many labelled
        ('\n' :: (("\n".intercalate (d.sections.map Section.text)).toList ++ '\x7d' :: r)) =
          some (d.sections, t) ∧ symbol '\x7d' t = some ((), r) := by
  have hbrace : ∀ w, (∀ c ∈ w, isBlank c = true) →
      symbol '\x7d' (w ++ '\x7d' :: r) = some ((), r) := by
    intro w hw
    rw [(skipsLayout_symbol _).blanks hw, symbol_cons (by decide) (by decide)]
  have hend : ∀ w, (∀ c ∈ w, isBlank c = true) → labelled (w ++ '\x7d' :: r) = none := by
    intro w hw
    rw [skipsLayout_labelled.blanks hw, labelled_brace]
  cases hne : d.sections with
  | nil =>
    exact ⟨['\n'] ++ '\x7d' :: r, many_eq (.nil _) (hend _ isBlank_newline) (by simp),
      hbrace _ isBlank_newline⟩
  | cons s sections =>
    -- What is behind a section is known for the next label, whatever follows that one.
    have hchain : d.sections.IsChain fun s t =>
        ∀ r, s.EndsBefore ('\n' :: (t.text.toList ++ r)) := by
      refine List.IsChain.imp_of_mem_imp ?_ h.closed
      intro s t _ ht hclosed r
      rw [t.text_eq]
      exact Section.endsBefore_label (h.sections t ht).label hclosed _
    obtain ⟨w, hw, hsteps⟩ := Steps.of_lines skipsLayout_labelled (by simp [hne])
      (fun s hs r hr => labelled_text (h.sections s hs) hr) hchain
      (fun s _ => s.endsBefore_brace r)
    rw [hne] at hsteps
    have hlength : (s :: sections).length ≤
        ("\n".intercalate ((s :: sections).map Section.text)).toList.length :=
      length_le_length_intercalate (by simp [Section.text]) _
    refine ⟨w ++ '\x7d' :: r, ?_, hbrace w hw⟩
    cases hsteps with
    | cons hs hsteps =>
      refine many_eq (.cons ?_ hsteps) (hend w hw) ?_
      · rw [skipsLayout_labelled.blank (by decide), hs]
      · simp only [List.length_cons, List.length_append] at hlength ⊢
        omega

theorem params_text {params : List String} (h : ∀ p ∈ params, IsName p) (r : List Char) :
    ∃ found, Reader.option (sepBy1 valueName (symbol ','))
        ((", ".intercalate (params.map fun p => "%" ++ p)).toList ++ ')' :: r) =
      some (found, ')' :: r) ∧ found.getD [] = params := by
  have hnext : next? (')' :: r) = some ')' := next?_cons (by decide) (by decide)
  unfold Reader.option
  cases params with
  | nil =>
    have hvalue : valueName (')' :: r) = none := valueName_of_next? (by rw [hnext]; decide)
    have hread : sepBy1 valueName (symbol ',') (')' :: r) = none := bind_of_none hvalue
    exact ⟨none, by simp [hread], rfl⟩
  | cons p ps =>
    have hread : sepBy1 valueName (symbol ',')
        ((", ".intercalate ((p :: ps).map fun p => "%" ++ p)).toList ++ ')' :: r) =
          some (p :: ps, ')' :: r) :=
      sepBy1_comma (by simp) skipsLayout_valueName
        (fun p hp t ht => by simpa using valueName_name (h p hp) ht.stops)
        (follows_of (by decide) (by decide) (by decide) (by decide) r) (by rw [hnext]; decide)
    rw [hread]
    exact ⟨some (p :: ps), rfl, rfl⟩

/-- The first line of a function is read back, and what comes next are its sections. -/
theorem definition_header {params : List String} (hname : IsName name)
    (hparams : ∀ p ∈ params, IsName p) (r : List Char) :
    definition (("define @" ++ name ++ "(" ++ ", ".intercalate (params.map fun p => "%" ++ p) ++
        ") \x7b\n").toList ++ r) =
      (many labelled ('\n' :: r)).bind fun x =>
        (symbol '\x7d' x.2).map fun y => (⟨name, params, x.1⟩, y.2) := by
  have htext : ("define @" ++ name ++ "(" ++ ", ".intercalate (params.map fun p => "%" ++ p) ++
      ") \x7b\n").toList ++ r = "define".toList ++ ' ' :: '@' :: (name.toList ++ '(' ::
        ((", ".intercalate (params.map fun p => "%" ++ p)).toList ++
          ')' :: ' ' :: '\x7b' :: '\n' :: r)) := by
    simp
  have hglobal : SkipsLayout globalName := .token _
  obtain ⟨found, hfound, hget⟩ := params_text hparams (' ' :: '\x7b' :: '\n' :: r)
  unfold definition
  rw [htext, bind_of_some (keyword_append _ (IsName.skipLayout (by decide) _)),
    bind_of_some ((hglobal.blank (by decide) _).trans (globalName_name hname (by simp; decide))),
    bind_of_some (symbol_cons (by decide) (by decide)), bind_of_some hfound,
    bind_of_some (symbol_cons (by decide) (by decide)),
    bind_of_some (((skipsLayout_symbol _).blank (by decide) _).trans
      (symbol_cons (by decide) (by decide))), bind_apply, hget]
  refine Option.bind_congr fun x _ => ?_
  rw [bind_apply, Option.map_eq_bind]
  rfl

theorem definition_text {d : Definition} (h : d.Fits Body.Printable) (r : List Char) :
    definition (d.text.toList ++ r) = some (d, '\n' :: r) := by
  obtain ⟨t, hsections, hbrace⟩ := sections_text h ('\n' :: r)
  have htext : d.text.toList ++ r = ("define @" ++ d.name ++ "(" ++
      ", ".intercalate (d.params.map fun p => "%" ++ p) ++ ") \x7b\n").toList ++
        (("\n".intercalate (d.sections.map Section.text)).toList ++ '\x7d' :: '\n' :: r) := by
    simp [Definition.text]
  rw [htext, definition_header h.name h.params, hsections, Option.bind_some, hbrace]
  rfl

/-- The text of printable trees says what the trees say. -/
theorem parse?_text {definitions : List Definition} (h : ∀ d ∈ definitions, d.Fits Body.Printable) :
    parse? ("\n".intercalate (definitions.map Definition.text)) = some definitions := by
  obtain ⟨t, hmany, hend⟩ : ∃ t, many definition
      ("\n".intercalate (definitions.map Definition.text)).toList = some (definitions, t) ∧
        token atEnd t = some ((), []) := by
    cases hne : definitions with
    | nil => exact ⟨[], rfl, rfl⟩
    | cons d rest =>
      obtain ⟨w, hw, hsteps⟩ := Steps.of_lines (P := fun _ _ => True) (r := [])
        skipsLayout_definition (by simp [hne])
        (fun d hd r _ => ⟨['\n'], isBlank_newline, definition_text (h d hd) r⟩)
        (List.pairwise_of_forall fun _ _ _ => trivial).isChain (fun _ _ => trivial)
      have hend : definition (w ++ []) = none := by
        rw [skipsLayout_definition.blanks hw]
        rfl
      have hdone : token atEnd (w ++ []) = some ((), []) := by
        rw [(SkipsLayout.token atEnd).blanks hw]
        rfl
      rw [List.append_nil] at hsteps
      rw [← hne]
      exact ⟨w ++ [],
        many_eq hsteps hend (length_le_length_intercalate (by simp [Definition.text]) _), hdone⟩
  unfold parse? run?
  rw [seqLeft_apply, hmany, Option.bind_some, hend]
  rfl

end FlowFacts.Source
