import FlowFacts.Proofs.ReadOperands

/-!
# Reading instructions and statements

Every instruction has a form of its own in the grammar, and the forms before it in the order of
alternatives refuse its text. What may come next differs: only an operand list, a list of cases
or an instruction without operands could go on.

Main results:

* `Source.body_text`, `Source.statement_text`: instructions and statements.
* `Source.endsBefore_statement`: a statement does not take anything from the next one.
-/

namespace FlowFacts.Source

open Reader

variable {name label : String} {r s : List Char} {c : Char}

/-! ## Instructions -/

theorem follows_of {c : Char} (hc : isIdentChar c = false) (hblank : isBlank c = false)
    (hcomment : c ≠ ';') (heq : c ≠ '=') (s : List Char) : Follows (c :: s) where
  stops := by simpa using hc
  next := by
    rw [next?_cons hblank hcomment]
    simpa using heq

theorem keyword_append (w : String) (hw : skipLayout false (w.toList ++ s) = w.toList ++ s) :
    keyword w (w.toList ++ s) = some ((), s) := by
  unfold keyword token Reader.word
  rw [hw, dropWord_append]
  rfl

theorem skipsLayout_labelRef : SkipsLayout labelRef := (skipsLayout_keyword _).seqRight _

theorem labelRef_text (h : IsName label) (hr : Stops isIdentChar r) :
    labelRef ((labelText label).toList ++ r) = some (label, r) := by
  have htext : (labelText label).toList ++ r =
      "label".toList ++ ' ' :: '%' :: (label.toList ++ r) := by
    simp [labelText]
  unfold labelRef
  rw [htext, seqRight_apply, keyword_append _ (IsName.skipLayout (by decide) _)]
  show valueName (' ' :: '%' :: (label.toList ++ r)) = some (label, r)
  rw [skipsLayout_valueName.blank (by decide), valueName_name h hr]

theorem skipsLayout_incoming : SkipsLayout incoming := (skipsLayout_symbol _).bind _

theorem incoming_text {pair : Term × String} (hterm : pair.1.Printable) (hlabel : IsName pair.2)
    (r : List Char) : incoming ((incomingText pair).toList ++ r) = some (pair, r) := by
  have htext : (incomingText pair).toList ++ r = '[' :: ' ' :: (pair.1.text.toList ++
      ',' :: ' ' :: '%' :: (pair.2.toList ++ ' ' :: ']' :: r)) := by
    simp [incomingText]
  unfold incoming
  rw [htext, bind_of_some (symbol_cons (by decide) (by decide)),
    bind_of_some ((skipsLayout_term.blank (by decide) _).trans (term_text hterm (follows_comma _))),
    bind_of_some (symbol_cons (by decide) (by decide)),
    bind_of_some ((skipsLayout_valueName.blank (by decide) _).trans
      (valueName_name hlabel (by simp; decide))),
    bind_of_some (((skipsLayout_symbol _).blank (by decide) _).trans
      (symbol_cons (by decide) (by decide)))]
  rfl

theorem switchCase_text {case : String × String} (hliteral : IsLiteral case.1)
    (hlabel : IsName case.2) (r : List Char) :
    switchCase ((caseText case).toList ++ r) = some (case, r) := by
  have htext : (caseText case).toList ++ r = ' ' :: '[' :: ' ' :: (case.1.toList ++
      ',' :: ' ' :: ((labelText case.2).toList ++ ' ' :: ']' :: r)) := by
    simp [caseText]
  have hinteger : SkipsLayout integer := .token _
  unfold switchCase
  rw [htext, bind_of_some (((skipsLayout_symbol _).blank (by decide) _).trans
      (symbol_cons (by decide) (by decide))),
    bind_of_some ((hinteger.blank (by decide) _).trans
      (integer_literal hliteral (by simp))),
    bind_of_some (symbol_cons (by decide) (by decide)),
    bind_of_some ((skipsLayout_labelRef.blank (by decide) _).trans
      (labelRef_text hlabel (by simp; decide))),
    bind_of_some (((skipsLayout_symbol _).blank (by decide) _).trans
      (symbol_cons (by decide) (by decide)))]
  rfl

/-- A keyword is not read from a word that differs from it somewhere. -/
theorem keyword_of_differs {w : String} (name : String) (h : IsName name)
    (hdiffers : ∃ x ∈ w.toList.zip name.toList, x.1 ≠ x.2) (r : List Char) :
    keyword w (name.toList ++ r) = none := by
  unfold keyword token Reader.word
  rw [h.skipLayout, Option.map_eq_none_iff]
  generalize w.toList = w, name.toList = n at hdiffers
  induction w generalizing n with
  | nil => simp at hdiffers
  | cons c w ih =>
    cases n with
    | nil => simp at hdiffers
    | cons d n =>
      rw [List.cons_append, dropWord]
      split_ifs with hcd
      · refine ih n ?_
        obtain ⟨x, hx, hne⟩ := hdiffers
        rcases List.mem_cons.1 hx with rfl | hx
        · exact absurd hcd hne
        · exact ⟨x, hx, hne⟩
      · rfl

/-- What an instruction needs behind it: nothing that could be taken for more of it. -/
structure Body.EndsBefore (b : Body) (s : List Char) : Prop where
  follows : Follows s
  comma : next? s ≠ some ','
  bracket : next? s ≠ some '['
  closed : b.Open → term s = none
  noLabel : b.Open → labelRef s = none

theorem phi_text {pairs : List (Term × String)} (h : (Body.phi pairs).Printable)
    (hr : (Body.phi pairs).EndsBefore r) :
    phi ((Body.phi pairs).text.toList ++ r) = some (.phi pairs, r) := by
  have htext : (Body.phi pairs).text.toList ++ r =
      "phi".toList ++ ' ' :: ((", ".intercalate (pairs.map incomingText)).toList ++ r) := by
    simp [Body.text]
  have hread := sepBy1_comma h.formed skipsLayout_incoming
    (fun p hp t _ => incoming_text (h.named p hp).1 (h.named p hp).2 t) hr.follows hr.comma
  unfold phi
  rw [htext, bind_of_some (keyword_append _ (IsName.skipLayout (by decide) _)),
    bind_of_some (((skipsLayout_incoming.sepBy1 _).blank (by decide) _).trans hread)]
  rfl

theorem condBr_text {condition : Term} {thenLabel elseLabel : String}
    (h : (Body.condBr condition thenLabel elseLabel).Printable) (hr : Stops isIdentChar r) :
    condBr ((Body.condBr condition thenLabel elseLabel).text.toList ++ r) =
      some (.condBr condition thenLabel elseLabel, r) := by
  have htext : (Body.condBr condition thenLabel elseLabel).text.toList ++ r =
      "br".toList ++ ' ' :: (condition.text.toList ++ ',' :: ' ' ::
        ((labelText thenLabel).toList ++ ',' :: ' ' :: ((labelText elseLabel).toList ++ r))) := by
    simp [Body.text]
  obtain ⟨hcondition, hthen, helse⟩ := h.named
  unfold condBr
  rw [htext, bind_of_some (keyword_append _ (IsName.skipLayout (by decide) _)),
    bind_of_some ((skipsLayout_term.blank (by decide) _).trans
      (term_text hcondition (follows_comma _))),
    bind_of_some (symbol_cons (by decide) (by decide)),
    bind_of_some ((skipsLayout_labelRef.blank (by decide) _).trans
      (labelRef_text hthen (follows_comma _).stops)),
    bind_of_some (symbol_cons (by decide) (by decide)),
    bind_of_some ((skipsLayout_labelRef.blank (by decide) _).trans (labelRef_text helse hr))]
  rfl

theorem br_text (h : IsName label) (hr : Stops isIdentChar r) :
    br ((Body.br label).text.toList ++ r) = some (.br label, r) := by
  have htext : (Body.br label).text.toList ++ r =
      "br".toList ++ ' ' :: ((labelText label).toList ++ r) := by
    simp [Body.text]
  unfold br
  rw [htext, bind_of_some (keyword_append _ (IsName.skipLayout (by decide) _)),
    bind_of_some ((skipsLayout_labelRef.blank (by decide) _).trans (labelRef_text h hr))]
  rfl

/-- A jump has no condition, because `label` is no operand. -/
theorem condBr_br (label : String) (r : List Char) :
    condBr ((Body.br label).text.toList ++ r) = none := by
  have htext : (Body.br label).text.toList ++ r =
      "br".toList ++ ' ' :: ("label".toList ++ ' ' :: '%' :: (label.toList ++ r)) := by
    simp [Body.text, labelText]
  unfold condBr
  rw [htext, bind_of_some (keyword_append _ (IsName.skipLayout (by decide) _)),
    bind_of_none ((skipsLayout_term.blank (by decide) _).trans
      (term_name (by decide) (by simp; decide) (by decide)))]

theorem switch_text {value : Term} {default : String} {cases : List (String × String)}
    (h : (Body.switch value default cases).Printable)
    (hr : (Body.switch value default cases).EndsBefore r) :
    switch ((Body.switch value default cases).text.toList ++ r) =
      some (.switch value default cases, r) := by
  have htext : (Body.switch value default cases).text.toList ++ r =
      "switch".toList ++ ' ' :: (value.text.toList ++ ',' :: ' ' ::
        ((labelText default).toList ++ ((cases.flatMap fun c => (caseText c).toList) ++ r))) := by
    simp [Body.text, List.flatMap_map]
  obtain ⟨hvalue, hdefault, hcases⟩ := h.named
  have hsteps : Steps switchCase cases ((cases.flatMap fun c => (caseText c).toList) ++ r) r :=
    .of_texts (P := fun _ => True)
      (fun c hc t _ => switchCase_text (hcases c hc).1 (hcases c hc).2 t)
      (fun _ _ _ => trivial) trivial
  have hlength : cases.length ≤ (cases.flatMap fun c => (caseText c).toList).length :=
    length_le_length_flatMap (by simp [caseText])
  have hmany := many_eq hsteps (bind_of_none (symbol_of_next? hr.bracket))
    (by rw [List.length_append]; omega)
  have hstops : Stops isIdentChar ((cases.flatMap fun c => (caseText c).toList) ++ r) := by
    cases cases with
    | nil => exact hr.follows.stops
    | cons c cases => simp [caseText]; decide
  unfold switch
  rw [htext, bind_of_some (keyword_append _ (IsName.skipLayout (by decide) _)),
    bind_of_some ((skipsLayout_term.blank (by decide) _).trans
      (term_text hvalue (follows_comma _))),
    bind_of_some (symbol_cons (by decide) (by decide)),
    bind_of_some ((skipsLayout_labelRef.blank (by decide) _).trans (labelRef_text hdefault hstops)),
    bind_of_some hmany]
  rfl

theorem call_text {callee : String} {args : List Term} (h : (Body.call callee args).Printable)
    (r : List Char) :
    call ((Body.call callee args).text.toList ++ r) = some (.call callee args, r) := by
  have htext : (Body.call callee args).text.toList ++ r =
      "call".toList ++ ' ' :: '@' :: (callee.toList ++ '(' ::
        ((", ".intercalate (args.map Term.text)).toList ++ ')' :: r)) := by
    simp [Body.text]
  obtain ⟨hcallee, hargs⟩ := h.named
  have hglobal : SkipsLayout globalName := .token _
  have hread : terms ((", ".intercalate (args.map Term.text)).toList ++ ')' :: r) =
      some (args, ')' :: r) := by
    cases hne : args with
    | nil =>
      refine terms_of_none (term_of_next?_none (c := ')') ?_ (by decide) (by decide))
      exact next?_cons (by decide) (by decide)
    | cons t ts =>
      rw [← hne]
      refine terms_of_sepBy1 (terms_text (by simp [hne]) hargs ?_ ?_)
      · exact follows_of (by decide) (by decide) (by decide) (by decide) r
      · rw [next?_cons (by decide) (by decide)]
        decide
  unfold call
  rw [htext, bind_of_some (keyword_append _ (IsName.skipLayout (by decide) _)),
    bind_of_some ((hglobal.blank (by decide) _).trans (globalName_name hcallee (by simp; decide))),
    bind_of_some (symbol_cons (by decide) (by decide)), bind_of_some hread,
    bind_of_some (symbol_cons (by decide) (by decide))]
  rfl

theorem isName_opcode (op : Opcode) : IsName op.name := by cases op <;> decide

theorem not_startsTerm_opcode (op : Opcode) : ¬ StartsTerm op.name := by cases op <;> decide

theorem opcode_name (op : Opcode) (hr : Stops isIdentChar r) :
    opcode (op.name.toList ++ r) = some (op.name, r) := by
  obtain ⟨c, rest, hname, hlower, hall⟩ : ∃ c rest, op.name.toList = c :: rest ∧
      c.isLower = true ∧ rest.all Char.isAlphanum = true := by
    cases op <;> exact ⟨_, _, rfl, by decide, by decide⟩
  have hrest := List.all_eq_true.1 hall
  have hr := stops_isAlphanum hr
  unfold opcode token
  rw [(isName_opcode op).skipLayout, hname, List.cons_append]
  simp only [hlower, if_true, takeWhile_append hrest hr, dropWhile_append hrest hr]
  rw [← hname, String.ofList_toList]

theorem Body.Printable.exists_opcode {opcode : String} {operands : List Term}
    (h : (Body.generic opcode operands).Printable) : ∃ op : Opcode, opcode = op.name := by
  rcases h.formed with ⟨op, -, rfl⟩ | hbare | hbare
  · exact ⟨op, rfl⟩
  · cases hbare
    exact ⟨.phi, rfl⟩
  · cases hbare
    exact ⟨.br, rfl⟩

theorem generic_text {opcode : String} {operands : List Term}
    (h : (Body.generic opcode operands).Printable)
    (hr : (Body.generic opcode operands).EndsBefore r) :
    generic ((Body.generic opcode operands).text.toList ++ r) =
      some (.generic opcode operands, r) := by
  obtain ⟨op, rfl⟩ := h.exists_opcode
  have hoperands := h.named
  unfold generic
  cases operands with
  | nil =>
    rw [show (Body.generic op.name []).text = op.name from rfl,
      bind_of_some (opcode_name op hr.follows.stops),
      bind_of_some (terms_of_none (hr.closed ⟨_, rfl⟩))]
    rfl
  | cons t ts =>
    have htext : (Body.generic op.name (t :: ts)).text.toList ++ r =
        op.name.toList ++ ' ' :: ((", ".intercalate ((t :: ts).map Term.text)).toList ++ r) := by
      simp [Body.text]
    have hread := terms_text (by simp) hoperands hr.follows hr.comma
    rw [htext, bind_of_some (opcode_name op (by simp; decide)),
      bind_of_some (terms_of_sepBy1
        (((skipsLayout_term.sepBy1 _).blank (by decide) _).trans hread))]
    rfl

/-- No keyword is read from the name of an opcode that has no form of its own. -/
theorem keyword_opcode {op : Opcode} (hop : op.isGeneric = true) {w : String}
    (hw : w ∈ ["phi", "br", "switch", "call"]) (r : List Char) :
    keyword w (op.name.toList ++ r) = none := by
  have hdiffers : ∀ w ∈ ["phi", "br", "switch", "call"],
      ∃ x ∈ w.toList.zip op.name.toList, x.1 ≠ x.2 := by
    cases op <;> first | decide | cases hop
  exact keyword_of_differs _ (isName_opcode op) (hdiffers w hw) r

theorem body_apply (s : List Char) :
    body s = (phi s).or ((condBr s).or ((br s).or ((switch s).or ((call s).or (generic s))))) := by
  unfold body
  simp only [orElse_apply]

/-! A keyword of which the form does not follow is an opcode like any other. -/

theorem body_phi (h : next? r ≠ some '[') :
    body ("phi".toList ++ r) = generic ("phi".toList ++ r) := by
  have hkeyword : ∀ w ∈ ["br", "switch", "call"], keyword w ("phi".toList ++ r) = none :=
    fun w hw => keyword_of_differs "phi" (by decide) (by revert w; decide) _
  have hincoming : incoming r = none := bind_of_none (symbol_of_next? h)
  have hphi : phi ("phi".toList ++ r) = none := by
    unfold phi sepBy1
    rw [bind_of_some (keyword_append _ (IsName.skipLayout (by decide) _)),
      bind_of_none (bind_of_none hincoming)]
  rw [body_apply, hphi, show condBr _ = none from bind_of_none (hkeyword _ (by decide)),
    show br _ = none from bind_of_none (hkeyword _ (by decide)),
    show switch _ = none from bind_of_none (hkeyword _ (by decide)),
    show call _ = none from bind_of_none (hkeyword _ (by decide))]
  rfl

theorem body_br (hterm : ∀ t s, term r = some (t, s) → next? s ≠ some ',')
    (hlabel : labelRef r = none) : body ("br".toList ++ r) = generic ("br".toList ++ r) := by
  have hkeyword : ∀ w ∈ ["phi", "switch", "call"], keyword w ("br".toList ++ r) = none :=
    fun w hw => keyword_of_differs "br" (by decide) (by revert w; decide) _
  have hcondBr : condBr ("br".toList ++ r) = none := by
    unfold condBr
    rw [bind_of_some (keyword_append _ (IsName.skipLayout (by decide) _))]
    cases hread : term r with
    | none => exact bind_of_none hread
    | some x => rw [bind_of_some hread, bind_of_none (symbol_of_next? (hterm _ _ hread))]
  have hbr : br ("br".toList ++ r) = none := by
    unfold br
    rw [bind_of_some (keyword_append _ (IsName.skipLayout (by decide) _)), bind_of_none hlabel]
  rw [body_apply, hcondBr, hbr, show phi _ = none from bind_of_none (hkeyword _ (by decide)),
    show switch _ = none from bind_of_none (hkeyword _ (by decide)),
    show call _ = none from bind_of_none (hkeyword _ (by decide))]
  rfl

theorem body_switch (h : ∀ t s s', term r = some (t, s) → symbol ',' s = some ((), s') →
    labelRef s' = none) : body ("switch".toList ++ r) = generic ("switch".toList ++ r) := by
  have hkeyword : ∀ w ∈ ["phi", "br", "call"], keyword w ("switch".toList ++ r) = none :=
    fun w hw => keyword_of_differs "switch" (by decide) (by revert w; decide) _
  have hswitch : switch ("switch".toList ++ r) = none := by
    unfold switch
    rw [bind_of_some (keyword_append _ (IsName.skipLayout (by decide) _))]
    cases hread : term r with
    | none => exact bind_of_none hread
    | some x =>
      rw [bind_of_some hread]
      cases hcomma : symbol ',' x.2 with
      | none => exact bind_of_none hcomma
      | some y => rw [bind_of_some hcomma, bind_of_none (h _ _ _ hread hcomma)]
  rw [body_apply, hswitch, show phi _ = none from bind_of_none (hkeyword _ (by decide)),
    show condBr _ = none from bind_of_none (hkeyword _ (by decide)),
    show br _ = none from bind_of_none (hkeyword _ (by decide)),
    show call _ = none from bind_of_none (hkeyword _ (by decide))]
  rfl

theorem body_call (h : next? r ≠ some '@') :
    body ("call".toList ++ r) = generic ("call".toList ++ r) := by
  have hkeyword : ∀ w ∈ ["phi", "br", "switch"], keyword w ("call".toList ++ r) = none :=
    fun w hw => keyword_of_differs "call" (by decide) (by revert w; decide) _
  have hcall : call ("call".toList ++ r) = none := by
    unfold call
    rw [bind_of_some (keyword_append _ (IsName.skipLayout (by decide) _)),
      bind_of_none (globalName_of_next? h)]
  rw [body_apply, hcall, show phi _ = none from bind_of_none (hkeyword _ (by decide)),
    show condBr _ = none from bind_of_none (hkeyword _ (by decide)),
    show br _ = none from bind_of_none (hkeyword _ (by decide)),
    show switch _ = none from bind_of_none (hkeyword _ (by decide))]
  rfl

/-- An instruction is read back by the first alternative that fits, which is its own. -/
theorem body_text {b : Body} (h : b.Printable) (hr : b.EndsBefore r) :
    body (b.text.toList ++ r) = some (b, r) := by
  -- Earlier alternatives refuse the first word; only the two jumps share theirs.
  rw [body_apply]
  cases b with
  | phi pairs =>
    rw [phi_text h hr]
    rfl
  | condBr condition thenLabel elseLabel =>
    have hphi : phi ((Body.condBr condition thenLabel elseLabel).text.toList ++ r) = none := by
      simp only [Body.text, String.toList_append, List.append_assoc]
      exact bind_of_none (keyword_of_differs "br" (by decide) (by decide) _)
    rw [hphi, condBr_text h hr.follows.stops]
    rfl
  | br label =>
    have hphi : phi ((Body.br label).text.toList ++ r) = none := by
      simp only [Body.text, String.toList_append, List.append_assoc]
      exact bind_of_none (keyword_of_differs "br" (by decide) (by decide) _)
    rw [hphi, condBr_br, br_text h.named hr.follows.stops]
    rfl
  | switch value default cases =>
    have hkeyword : ∀ w ∈ ["phi", "br"],
        keyword w ((Body.switch value default cases).text.toList ++ r) = none := by
      intro w hw
      simp only [Body.text, String.toList_append, List.append_assoc]
      exact keyword_of_differs "switch" (by decide) (by revert w; decide) _
    rw [switch_text h hr, show phi _ = none from bind_of_none (hkeyword _ (by decide)),
      show condBr _ = none from bind_of_none (hkeyword _ (by decide)),
      show br _ = none from bind_of_none (hkeyword _ (by decide))]
    rfl
  | call callee args =>
    have hkeyword : ∀ w ∈ ["phi", "br", "switch"],
        keyword w ((Body.call callee args).text.toList ++ r) = none := by
      intro w hw
      simp only [Body.text, String.toList_append, List.append_assoc]
      exact keyword_of_differs "call" (by decide) (by revert w; decide) _
    rw [call_text h r, show phi _ = none from bind_of_none (hkeyword _ (by decide)),
      show condBr _ = none from bind_of_none (hkeyword _ (by decide)),
      show br _ = none from bind_of_none (hkeyword _ (by decide)),
      show switch _ = none from bind_of_none (hkeyword _ (by decide))]
    rfl
  | generic opcode operands =>
    have hread := generic_text h hr
    rcases h.formed with ⟨op, hop, rfl⟩ | hbare | hbare
    · obtain ⟨t, ht⟩ : ∃ t, (Body.generic op.name operands).text.toList ++ r =
          op.name.toList ++ t := by
        obtain ⟨t, ht⟩ := Body.exists_text_generic op.name operands
        exact ⟨t.toList ++ r, by rw [ht, String.toList_append, List.append_assoc]⟩
      rw [hread]
      rw [ht] at hread ⊢
      rw [show phi _ = none from bind_of_none (keyword_opcode hop (by decide) _),
        show condBr _ = none from bind_of_none (keyword_opcode hop (by decide) _),
        show br _ = none from bind_of_none (keyword_opcode hop (by decide) _),
        show switch _ = none from bind_of_none (keyword_opcode hop (by decide) _),
        show call _ = none from bind_of_none (keyword_opcode hop (by decide) _)]
      rfl
    · cases hbare
      rw [← body_apply]
      exact (body_phi hr.bracket).trans hread
    · cases hbare
      rw [← body_apply]
      refine (body_br (fun t s ht => ?_) (hr.noLabel ⟨_, rfl⟩)).trans hread
      rw [hr.closed ⟨_, rfl⟩] at ht
      cases ht

/-! ## Statements -/

/-- Every instruction starts with the name of an opcode. -/
theorem Body.Printable.word {b : Body} (h : b.Printable) :
    ∃ (op : Opcode) (rest : List Char), b.text.toList = op.name.toList ++ rest ∧
      (rest = [] ∨ ∃ t, rest = ' ' :: t) := by
  cases b with
  | phi pairs => exact ⟨.phi, _, by simp [Body.text]; rfl, .inr ⟨_, rfl⟩⟩
  | condBr condition thenLabel elseLabel =>
    exact ⟨.br, _, by simp [Body.text]; rfl, .inr ⟨_, rfl⟩⟩
  | br label => exact ⟨.br, _, by simp [Body.text]; rfl, .inr ⟨_, rfl⟩⟩
  | switch value default cases => exact ⟨.switch, _, by simp [Body.text]; rfl, .inr ⟨_, rfl⟩⟩
  | call callee args => exact ⟨.call, _, by simp [Body.text]; rfl, .inr ⟨_, rfl⟩⟩
  | generic opcode operands =>
    obtain ⟨op, rfl⟩ := h.exists_opcode
    cases operands with
    | nil => exact ⟨op, [], by simp [Body.text], .inl rfl⟩
    | cons t ts => exact ⟨op, _, by simp [Body.text]; rfl, .inr ⟨_, rfl⟩⟩

/-- The word at the start of an instruction that a blank follows. -/
theorem Body.Printable.line {b : Body} (h : b.Printable) (hc : isBlank c = true) (r : List Char) :
    ∃ (op : Opcode) (d : Char) (t : List Char),
      b.text.toList ++ c :: r = op.name.toList ++ d :: t ∧ isBlank d = true := by
  obtain ⟨op, rest, htext, rfl | ⟨t, rfl⟩⟩ := h.word
  · exact ⟨op, c, r, by simp [htext], hc⟩
  · exact ⟨op, ' ', t ++ c :: r, by simp [htext], by decide⟩

theorem stops_blank (hc : isBlank c = true) (s : List Char) : Stops isIdentChar (c :: s) := by
  cases hident : isIdentChar c with
  | false => simpa using hident
  | true => simp [(not_isBlank_of_isIdentChar hident).1] at hc

theorem skipsLayout_body : SkipsLayout body := fun s => by
  have hphi : SkipsLayout phi := (skipsLayout_keyword _).bind _
  have hcondBr : SkipsLayout condBr := (skipsLayout_keyword _).bind _
  have hbr : SkipsLayout br := (skipsLayout_keyword _).bind _
  have hswitch : SkipsLayout switch := (skipsLayout_keyword _).bind _
  have hcall : SkipsLayout call := (skipsLayout_keyword _).bind _
  have hgeneric : SkipsLayout generic := (SkipsLayout.token _).bind _
  simp only [body_apply, hphi s, hcondBr s, hbr s, hswitch s, hcall s, hgeneric s]

theorem skipsLayout_statement : SkipsLayout statement :=
  (SkipsLayout.token _).notAhead_bind
    ((skipsLayout_valueName.seqLeft _).option_bind (skipsLayout_body.bind _))

theorem labelDef_of_next? (hnext : next? s = some c) (hc : isIdentChar c = false) :
    labelDef s = none := by
  have hstops : Stops isIdentChar (skipLayout false s) := by
    intro d hd
    obtain rfl : c = d := Option.some.inj (hnext.symm.trans hd)
    exact hc
  unfold labelDef token ident
  rw [seqLeft_apply, map_apply, span1_of_stops hstops]
  rfl

/-- A word that a blank follows is no label. -/
theorem labelDef_word (h : IsName name) (hc : isBlank c = true) (r : List Char) :
    labelDef (name.toList ++ c :: r) = none := by
  have hcolon : ¬ c = ':' := by
    rintro rfl
    revert hc
    decide
  unfold labelDef token
  rw [h.skipLayout, seqLeft_apply, ident_name h (stops_blank hc r)]
  simp [Reader.char, hcolon]

/-- Behind its result, a statement is read as its instruction is. -/
theorem statement_of_body {result : Option String} {op : Opcode} {b : Body} {t : List Char}
    (hresult : ∀ name ∈ result, IsName name) (hc : isBlank c = true)
    (hbody : body (op.name.toList ++ c :: t) = some (b, r)) :
    statement ((resultText result).toList ++ (op.name.toList ++ c :: t)) =
      some (⟨result, b⟩, r) := by
  unfold statement
  cases result with
  | none =>
    have hname := isName_opcode op
    have hlabel : notAhead labelDef (op.name.toList ++ c :: t) =
        some ((), op.name.toList ++ c :: t) := by
      simp [notAhead, labelDef_word hname hc]
    have hvalue : valueName (op.name.toList ++ c :: t) = none :=
      valueName_of_next? (hname.next?_ne (by decide) _)
    have hoption : Reader.option (valueName <* symbol '=') (op.name.toList ++ c :: t) =
        some (none, op.name.toList ++ c :: t) := by
      simp [Reader.option, seqLeft_apply, hvalue]
    rw [show (resultText none).toList = [] from rfl, List.nil_append, bind_of_some hlabel,
      bind_of_some hoption, bind_of_some hbody]
    rfl
  | some name =>
    have hname : IsName name := hresult name rfl
    generalize op.name.toList ++ c :: t = s at hbody
    have htext : (resultText (some name)).toList ++ s =
        '%' :: (name.toList ++ ' ' :: '=' :: ' ' :: s) := by
      simp [resultText]
    have hlabel : ∀ t, notAhead labelDef ('%' :: t) = some ((), '%' :: t) := by
      intro t
      have hnone : labelDef ('%' :: t) = none :=
        labelDef_of_next? (next?_cons (by decide) (by decide)) (by decide)
      simp [notAhead, hnone]
    have hoption : Reader.option (valueName <* symbol '=')
        ('%' :: (name.toList ++ ' ' :: '=' :: ' ' :: s)) = some (some name, ' ' :: s) := by
      have hsymbol : symbol '=' (' ' :: '=' :: ' ' :: s) = some ((), ' ' :: s) := by
        rw [(skipsLayout_symbol '=').blank (by decide), symbol_cons (by decide) (by decide)]
      have hvalue := valueName_name (r := ' ' :: '=' :: ' ' :: s) hname
        (stops_blank (by decide) _)
      simp [Reader.option, seqLeft_apply, hvalue, hsymbol]
    rw [htext, bind_of_some (hlabel _), bind_of_some hoption,
      bind_of_some ((skipsLayout_body.blank (by decide) _).trans hbody)]
    rfl

/-- A statement is read back in front of a blank. -/
theorem statement_text {st : Statement} (h : st.Fits Body.Printable) (hc : isBlank c = true)
    (hr : st.body.EndsBefore (c :: r)) :
    statement (st.text.toList ++ c :: r) = some (st, c :: r) := by
  have hbody := body_text h.body hr
  obtain ⟨op, d, t, htext, hd⟩ := h.body.line hc r
  rw [Statement.text, String.toList_append, List.append_assoc]
  rw [htext] at hbody ⊢
  exact statement_of_body h.result hd hbody

/-- No name of an opcode is taken for a reference to a label. -/
theorem labelRef_opcode (op : Opcode) (r : List Char) : labelRef (op.name.toList ++ r) = none := by
  have hkeyword : keyword "label" (op.name.toList ++ r) = none :=
    keyword_of_differs _ (isName_opcode op) (by cases op <;> decide) r
  unfold labelRef
  rw [seqRight_apply, hkeyword]
  rfl

theorem keyword_of_next? {w : String} {d : Char} (hw : d ∈ w.toList.head?) (h : next? s ≠ some d) :
    keyword w s = none := by
  obtain ⟨rest, hw⟩ := List.head?_eq_some_iff.1 hw
  unfold keyword token Reader.word next? at *
  cases hs : skipLayout false s with
  | nil => simp [hw, dropWord]
  | cons e t =>
    rw [hs] at h
    have he : ¬ d = e := fun heq => h (heq ▸ rfl)
    simp [hw, dropWord, he]

/-- No reference to a label starts with another character than its keyword does. -/
theorem labelRef_of_next? (h : next? s ≠ some 'l') : labelRef s = none := by
  unfold labelRef
  rw [seqRight_apply, keyword_of_next? (by decide) h]
  rfl

/-- The name of a label is not taken for a reference to one: no sigil follows the keyword. -/
theorem labelRef_label (h : IsName label) (r : List Char) :
    labelRef (label.toList ++ ':' :: r) = none := by
  unfold labelRef keyword token Reader.word
  rw [seqRight_apply, h.skipLayout]
  cases hdrop : dropWord "label".toList (label.toList ++ ':' :: r) with
  | none => rfl
  | some t =>
    have hstarts : ∃ c ∈ t.head?, c = ':' ∨ isIdentChar c = true := by
      rcases List.append_eq_append_iff.1 (eq_append_of_dropWord hdrop) with
        ⟨rest, hword, ht⟩ | ⟨rest, hlabel, rfl⟩
      · cases rest with
        | nil => exact ⟨':', by rw [← List.nil_append t, ← ht]; rfl, .inl rfl⟩
        | cons c rest =>
          -- The keyword has no colon in it.
          cases ht
          have hmem : ':' ∈ "label".toList := by rw [hword]; simp
          exact absurd hmem (by decide)
      · cases rest with
        | nil => exact ⟨':', rfl, .inl rfl⟩
        | cons c rest => exact ⟨c, rfl, .inr (h.2 c (by rw [hlabel]; simp))⟩
    obtain ⟨c, hc, hkind⟩ := hstarts
    obtain ⟨rest, rfl⟩ := List.head?_eq_some_iff.1 hc
    refine valueName_of_next? ?_
    have hlayout : isBlank c = false ∧ c ≠ ';' := by
      rcases hkind with rfl | hident
      · decide
      · exact not_isBlank_of_isIdentChar hident
    show next? (c :: rest) ≠ some '%'
    rw [next?_cons hlayout.1 hlayout.2]
    rintro heq
    cases heq
    revert hkind
    decide

/-- In front of a line with a statement, any instruction ends. -/
theorem endsBefore_statement {result : Option String} (hresult : ∀ name ∈ result, IsName name)
    (op : Opcode) (hc : isBlank c = true) (t : List Char) (b : Body) :
    b.EndsBefore
      ('\n' :: ' ' :: ' ' :: ((resultText result).toList ++ (op.name.toList ++ c :: t))) := by
  -- What comes next is the sigil of the result or the first letter of the instruction.
  obtain ⟨d, hnext, hd, hterm, hlabel⟩ : ∃ d,
      next? ((resultText result).toList ++ (op.name.toList ++ c :: t)) = some d ∧
      (d = '%' ∨ isIdentChar d = true) ∧
      term ((resultText result).toList ++ (op.name.toList ++ c :: t)) = none ∧
      labelRef ((resultText result).toList ++ (op.name.toList ++ c :: t)) = none := by
    cases result with
    | none =>
      have hname := isName_opcode op
      obtain ⟨d, hnext, -, hd⟩ := hname.next? (c :: t)
      rw [show (resultText none).toList = [] from rfl, List.nil_append]
      exact ⟨d, hnext, .inr hd, term_name hname (stops_blank hc t) (not_startsTerm_opcode op),
        labelRef_opcode op _⟩
    | some name =>
      have htext : (resultText (some name)).toList ++ (op.name.toList ++ c :: t) =
          '%' :: (name.toList ++ ' ' :: '=' :: ' ' :: (op.name.toList ++ c :: t)) := by
        simp [resultText]
      have hnext : ∀ t, next? ('%' :: t) = some '%' := fun t => next?_cons (by decide) (by decide)
      rw [htext]
      exact ⟨'%', hnext _, .inl rfl, term_result (hresult name rfl) _,
        labelRef_of_next? (by rw [hnext]; decide)⟩
  generalize (resultText result).toList ++ (op.name.toList ++ c :: t) = s at hnext hterm hlabel ⊢
  have hnext : next? ('\n' :: ' ' :: ' ' :: s) = some d := by
    rw [next?_blank (by decide), next?_blank (by decide), next?_blank (by decide), hnext]
  have hne : ∀ e : Char, e ≠ '%' → isIdentChar e = false → some d ≠ some e := by
    rintro e hpercent hident heq
    cases heq
    rcases hd with hd | hd
    · exact hpercent hd
    · simp [hd] at hident
  exact {
    follows := ⟨stops_blank (by decide) _, by rw [hnext]; exact hne _ (by decide) (by decide)⟩
    comma := by rw [hnext]; exact hne _ (by decide) (by decide)
    bracket := by rw [hnext]; exact hne _ (by decide) (by decide)
    closed := fun _ => by
      rw [skipsLayout_term.blank (by decide), skipsLayout_term.blank (by decide),
        skipsLayout_term.blank (by decide), hterm]
    noLabel := fun _ => by
      rw [skipsLayout_labelRef.blank (by decide), skipsLayout_labelRef.blank (by decide),
        skipsLayout_labelRef.blank (by decide), hlabel] }

theorem Body.isBlank_trail (b : Body) : ∀ c ∈ b.trail.toList, isBlank c = true := by
  unfold trail
  split_ifs
  · exact List.forall_mem_singleton.2 rfl
  · exact List.forall_mem_nil _

/-- Behind an instruction there is a blank, if only the end of its line. -/
theorem Body.exists_trail (b : Body) (r : List Char) :
    ∃ c t, b.trail.toList ++ '\n' :: r = c :: t ∧ isBlank c = true := by
  unfold trail
  split_ifs
  · exact ⟨' ', '\n' :: r, rfl, by decide⟩
  · exact ⟨'\n', r, rfl, by decide⟩

/-- The blank behind a keyword does not change what may follow. -/
theorem Body.EndsBefore.trail {b : Body} (h : b.EndsBefore ('\n' :: r)) :
    b.EndsBefore (b.trail.toList ++ '\n' :: r) := by
  have hnext := next?_blanks b.isBlank_trail ('\n' :: r)
  refine ⟨⟨?_, ?_⟩, ?_, ?_, fun hopen => ?_, fun hopen => ?_⟩
  · unfold Body.trail
    split_ifs
    · exact stops_blank (by decide) _
    · exact h.follows.stops
  · rw [hnext]
    exact h.follows.next
  · rw [hnext]
    exact h.comma
  · rw [hnext]
    exact h.bracket
  · rw [skipsLayout_term.blanks b.isBlank_trail, h.closed hopen]
  · rw [skipsLayout_labelRef.blanks b.isBlank_trail, h.noLabel hopen]

end FlowFacts.Source
