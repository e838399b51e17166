import FlowFacts.Proofs.PrintParse

/-!
# Printed texts that cannot be read

Two kinds of instructions have texts that are not read back: a jump by value without targets and a
call of something else than a global symbol. Behind them reading is stuck at a comma or a bracket.
A jump without targets is read back unless the next label looks like an operand: it takes the front
of that label, and what is left of it is another label or none.

Main results:

* `Source.Derailed`: places where reading does not go on as it should.
* `Source.Resolved.exists_derailed`: the lines of such instructions lead there.
* `Source.Resolved.readsBack_of_steps`: what can be read of the blocks of a function.
* `Source.legible_of_steps`: if all functions of a text are read in printed form, or with the right
  labels, then there was no such line.
-/

namespace FlowFacts

namespace Source

open Reader

variable {label : String} {next : Option String} {r s : List Char} {c : Char}

/-! ## Places where reading goes wrong -/

/-- What comes behind the last line of a section: the next label, or the brace. -/
inductive Section.Follows : Option String → List Char → Prop
  | label {label : String} (h : IsName label) (r : List Char) :
    Section.Follows (some label) ('\n' :: (label.toList ++ ':' :: r))
  | brace (r : List Char) : Section.Follows none ('\x7d' :: r)

/-- A place where nothing can be read: neither a statement nor a label nor the brace. -/
def Stuck (s : List Char) : Prop :=
  ∃ c, next? s = some c ∧ isIdentChar c = false ∧ c ≠ '%' ∧ c ≠ '\x7d'

/-- The label in the first text has lost its front in the second one. -/
inductive Cut : List Char → List Char → Prop
  | mk {label rest : String} (hlabel : IsName label) (hrest : IsName rest) (hne : rest ≠ label)
    (r : List Char) : Cut ('\n' :: (label.toList ++ ':' :: r)) (rest.toList ++ ':' :: r)

/-- Reading should have gone on with the first text, but it goes on with the second one. -/
def Derailed (r s : List Char) : Prop := Stuck s ∨ Cut r s

theorem Cut.exists_rest (hlabel : IsName label) (h : Cut ('\n' :: (label.toList ++ ':' :: r)) s) :
    ∃ rest, IsName rest ∧ rest ≠ label ∧ s = rest.toList ++ ':' :: r := by
  generalize htext : '\n' :: (label.toList ++ ':' :: r) = text at h
  cases h with
  | @mk label' rest hlabel' hrest hne r' =>
    have hread := labelDef_name hlabel r
    rw [(List.cons.inj htext).2, labelDef_name hlabel' r'] at hread
    cases hread
    exact ⟨rest, hrest, hne, rfl⟩

theorem Stuck.labelled_eq_none (h : Stuck s) : labelled s = none := by
  obtain ⟨c, hnext, hident, -, -⟩ := h
  exact bind_of_none (labelDef_of_next? hnext hident)

namespace Derailed

theorem statement_eq_none (h : Derailed r s) : statement s = none := by
  rcases h with ⟨c, hnext, hident, hpercent, -⟩ | hcut
  · exact statement_of_next? hnext hident hpercent
  · cases hcut with
    | mk hlabel hrest hne r =>
      unfold statement
      exact bind_of_none (by simp [notAhead, labelDef_name hrest])

theorem symbol_brace (h : Derailed r s) : symbol '\x7d' s = none := by
  refine symbol_of_next? ?_
  rcases h with ⟨c, hnext, -, -, hbrace⟩ | hcut
  · rw [hnext]
    simpa using hbrace
  · cases hcut with
    | mk hlabel hrest hne r => exact hrest.next?_ne (by decide) _

end Derailed

/-- A label that looks like an operand loses its front. -/
theorem term_of_startsTerm (h : IsName label) (hstarts : StartsTerm label) (r : List Char) :
    ∃ t rest, term (label.toList ++ ':' :: r) = some (t, rest ++ ':' :: r) ∧
      rest.length < label.toList.length ∧ ∀ c ∈ rest, isIdentChar c = true := by
  have hne : label.toList.length > 0 := List.length_pos_iff.2 h.1
  rw [term_of_next? (h.next?_ne (by decide) _)]
  by_cases hdigit : ∀ c ∈ label.toList.head?, c.isDigit = false
  · have hword : label = "null" ∨ label = "undef" := by
      rcases hstarts with ⟨c, hc, hd⟩ | hword
      · rw [hdigit c hc] at hd
        cases hd
      · exact hword
    rw [plainTerm_name h (by simp; decide) hdigit]
    rcases hword with rfl | rfl
    · exact ⟨.null, [], rfl, hne, by simp⟩
    · exact ⟨.undefined, [], rfl, hne, by simp⟩
  · -- Digits are taken for a number.
    obtain ⟨digits, rest, hlabel, hne, hdigits, hstops⟩ : ∃ digits rest,
        label.toList = digits ++ rest ∧ digits ≠ [] ∧ (∀ d ∈ digits, d.isDigit = true) ∧
          Stops Char.isDigit rest := by
      refine ⟨_, _, List.takeWhile_append_dropWhile.symm, ?_, fun d hd => List.mem_takeWhile_imp hd,
        stops_dropWhile _ _⟩
      obtain ⟨c, chars, hlabel, -⟩ := h.head
      rw [hlabel] at hdigit ⊢
      simpa [List.takeWhile_cons] using hdigit
    have hliteral : IsLiteral (String.ofList digits) :=
      ⟨digits, hne, hdigits, .inl String.toList_ofList⟩
    have hstops' : Stops Char.isDigit (rest ++ ':' :: r) := by
      cases rest with
      | nil => simp
      | cons c rest => simpa using hstops
    have hinteger := integer_literal hliteral hstops'
    rw [String.toList_ofList, ← List.append_assoc, ← hlabel] at hinteger
    refine ⟨.integer (String.ofList digits), rest, ?_, ?_, ?_⟩
    · rw [plainTerm_apply, valueName_of_next? (h.next?_ne (by decide) _),
        globalName_of_next? (h.next?_ne (by decide) _), hinteger]
      rfl
    · have hpos := List.length_pos_iff.2 hne
      rw [hlabel, List.length_append]
      omega
    · exact fun c hc => h.2 c (by rw [hlabel]; exact List.mem_append_right _ hc)

theorem Section.Follows.labelRef_eq_none (h : Section.Follows next r) : labelRef r = none := by
  cases h with
  | label h r => rw [skipsLayout_labelRef.blank (by decide), labelRef_label h]
  | brace r =>
    refine labelRef_of_next? ?_
    rw [next?_cons (by decide) (by decide)]
    decide

/-- Behind a section either there is no operand, or an operand is cut off the next label. -/
theorem Section.Follows.term_cases (h : Section.Follows next r) :
    (term r = none ∧ ∀ label ∈ next, ¬ StartsTerm label) ∨
      ∃ t s, term r = some (t, s) ∧ Derailed r s ∧ next? s ≠ some ',' := by
  cases h with
  | @label label h r =>
    by_cases hstarts : StartsTerm label
    · obtain ⟨t, rest, hterm, hlength, hrest⟩ := term_of_startsTerm h hstarts r
      refine .inr ⟨t, _, (skipsLayout_term.blank (by decide) _).trans hterm, ?_⟩
      cases hempty : rest with
      | nil =>
        have hnext : next? (':' :: r) = some ':' := next?_cons (by decide) (by decide)
        rw [List.nil_append]
        exact ⟨.inl ⟨':', hnext, by decide⟩, by rw [hnext]; decide⟩
      | cons c chars =>
        have hname : IsName (String.ofList rest) := by simpa [IsName, hempty] using hrest
        have hne : String.ofList rest ≠ label := by
          rintro rfl
          simp at hlength
        have hcut := Cut.mk h hname hne r
        have hcomma : next? ((String.ofList rest).toList ++ ':' :: r) ≠ some ',' :=
          hname.next?_ne (by decide) _
        rw [String.toList_ofList, hempty] at hcut hcomma
        exact ⟨.inr hcut, hcomma⟩
    · refine .inl ⟨(skipsLayout_term.blank (by decide) _).trans
        (term_name h (by simp; decide) hstarts), ?_⟩
      intro label' hlabel'
      cases hlabel'
      exact hstarts
  | brace r =>
    refine .inl ⟨?_, by simp⟩
    exact term_of_next?_none (next?_cons (by decide) (by decide)) (by decide) (by decide)

/-! ## Lines that lead there -/

theorem generic_of_terms (op : Opcode) {ts : List Term} (hc : isBlank c = true)
    (h : terms (c :: r) = some (ts, s)) :
    generic (op.name.toList ++ c :: r) = some (.generic op.name ts, s) := by
  unfold generic
  rw [bind_of_some (opcode_name op (stops_blank hc r)), bind_of_some h]
  rfl

theorem terms_singleton {t : Term} (h : term r = some (t, s)) (hcomma : next? s ≠ some ',') :
    terms r = some ([t], s) := by
  refine terms_of_sepBy1 (sepBy1_eq h (.nil s) ?_ (by simp))
  rw [seqRight_apply, symbol_of_next? hcomma]
  rfl

/-- The four opcodes with a form of their own are not written in another one, but for two of them
    without operands. -/
theorem not_formed {op : Opcode} {ts : List Term} (hop : op.isGeneric = false)
    (hts : ts ≠ [] ∨ op = .switch ∨ op = .call) : ¬ (Body.generic op.name ts).Formed := by
  rintro (⟨op', hop', hname⟩ | hbare | hbare)
  · rw [Opcode.name_injective hname, hop'] at hop
    cases hop
  · obtain ⟨hname, rfl⟩ := Body.generic.inj hbare
    rw [Opcode.name_injective hname] at hts
    simp at hts
  · obtain ⟨hname, rfl⟩ := Body.generic.inj hbare
    rw [Opcode.name_injective hname] at hts
    simp at hts

/-- A jump without targets takes an operand from the next label. -/
theorem body_br_label (h : Section.Follows (some label) r) (hstarts : StartsTerm label) :
    ∃ b s, body ("br".toList ++ ' ' :: '\n' :: r) = some (b, s) ∧ ¬ b.Formed ∧
      Derailed r s := by
  obtain ⟨-, hnot⟩ | ⟨t, s, hterm, hs, hcomma⟩ := h.term_cases
  · exact absurd hstarts (hnot label rfl)
  have hterm' : term (' ' :: '\n' :: r) = some (t, s) := by
    rw [skipsLayout_term.blank (by decide), skipsLayout_term.blank (by decide), hterm]
  have hlabel : labelRef (' ' :: '\n' :: r) = none := by
    rw [skipsLayout_labelRef.blank (by decide), skipsLayout_labelRef.blank (by decide),
      h.labelRef_eq_none]
  refine ⟨_, s, (body_br ?_ hlabel).trans (generic_of_terms .br (by decide)
    (terms_singleton hterm' hcomma)), not_formed rfl (.inl (by simp)), hs⟩
  intro t' s' hread
  cases hterm'.symm.trans hread
  exact hcomma

/-- A jump by value without targets is stuck at its comma, or it takes an operand from the next
    label. -/
theorem body_switch_comma {t : Term} (ht : t.Printable) (h : Section.Follows next r) :
    ∃ b s, body ("switch".toList ++ ' ' :: (t.text.toList ++ ',' :: ' ' :: '\n' :: r)) =
      some (b, s) ∧ ¬ b.Formed ∧ Derailed r s := by
  have hread : term (' ' :: (t.text.toList ++ ',' :: ' ' :: '\n' :: r)) =
      some (t, ',' :: ' ' :: '\n' :: r) := by
    rw [skipsLayout_term.blank (by decide), term_text ht (follows_comma _)]
  have hlabel : labelRef (' ' :: '\n' :: r) = none := by
    rw [skipsLayout_labelRef.blank (by decide), skipsLayout_labelRef.blank (by decide),
      h.labelRef_eq_none]
  have hcomma : symbol ',' (',' :: ' ' :: '\n' :: r) = some ((), ' ' :: '\n' :: r) :=
    symbol_cons (by decide) (by decide)
  have hgeneric := body_switch (r := ' ' :: (t.text.toList ++ ',' :: ' ' :: '\n' :: r)) <| by
    intro t' s s' hterm hsymbol
    cases hread.symm.trans hterm
    cases hcomma.symm.trans hsymbol
    exact hlabel
  have hitem : (symbol ',' *> term) (',' :: ' ' :: '\n' :: r) = term r := by
    rw [seqRight_apply, hcomma, Option.bind_some, skipsLayout_term.blank (by decide),
      skipsLayout_term.blank (by decide)]
  obtain ⟨hnone, -⟩ | ⟨t', s, hterm, hs, hcomma'⟩ := h.term_cases
  · have hterms : terms (' ' :: (t.text.toList ++ ',' :: ' ' :: '\n' :: r)) =
        some ([t], ',' :: ' ' :: '\n' :: r) :=
      terms_of_sepBy1 (sepBy1_eq hread (.nil _) (hitem.trans hnone) (by simp))
    have hnext : next? (',' :: ' ' :: '\n' :: r) = some ',' := next?_cons (by decide) (by decide)
    exact ⟨_, _, hgeneric.trans (generic_of_terms .switch (by decide) hterms),
      not_formed rfl (.inr (.inl rfl)), .inl ⟨',', hnext, by decide⟩⟩
  · have hend : (symbol ',' *> term) s = none := by
      rw [seqRight_apply, symbol_of_next? hcomma']
      rfl
    have hterms : terms (' ' :: (t.text.toList ++ ',' :: ' ' :: '\n' :: r)) =
        some ([t, t'], s) :=
      terms_of_sepBy1 (sepBy1_eq hread (.cons (hitem.trans hterm) (.nil s)) hend (by simp))
    exact ⟨_, s, hgeneric.trans (generic_of_terms .switch (by decide) hterms),
      not_formed rfl (.inr (.inl rfl)), hs⟩

theorem body_switch_nil (r : List Char) :
    ∃ b s, body ("switch".toList ++ ' ' :: ',' :: r) = some (b, s) ∧ ¬ b.Formed ∧ Stuck s := by
  have hnext : next? (' ' :: ',' :: r) = some ',' := by
    rw [next?_blank (by decide), next?_cons (by decide) (by decide)]
  have hterm : term (' ' :: ',' :: r) = none :=
    term_of_next?_none hnext (by decide) (by decide)
  refine ⟨_, _, (body_switch fun t s s' hread => ?_).trans
    (generic_of_terms .switch (by decide) (terms_of_none hterm)),
    not_formed rfl (.inr (.inl rfl)), ',', hnext, by decide⟩
  cases hterm.symm.trans hread

theorem Term.Printable.next?_ne_at {t : Term} (ht : t.Printable)
    (hglobal : ∀ name, t ≠ .global name) (r : List Char) :
    next? (t.text.toList ++ r) ≠ some '@' := by
  cases t with
  | value name =>
    have htext : (Term.value name).text.toList ++ r = '%' :: (name.toList ++ r) := by
      simp [Term.text]
    rw [htext, next?_cons (by decide) (by decide)]
    decide
  | global name => exact absurd rfl (hglobal name)
  | integer literal =>
    obtain ⟨c, hnext, hc⟩ := IsLiteral.next? ht r
    rw [show (Term.integer literal).text = literal from rfl, hnext]
    rintro heq
    cases heq
    revert hc
    decide
  | null =>
    have hnull : IsName "null" := by decide
    exact hnull.next?_ne (by decide) r
  | undefined =>
    have hundef : IsName "undef" := by decide
    exact hundef.next?_ne (by decide) r

/-- A call of something else than a global symbol is stuck at its bracket. -/
theorem body_call_bracket {t : Term} (ht : t.Printable) (hglobal : ∀ name, t ≠ .global name)
    (r : List Char) :
    ∃ b s, body ("call".toList ++ ' ' :: (t.text.toList ++ '(' :: r)) = some (b, s) ∧
      ¬ b.Formed ∧ Stuck s := by
  have hfollows : Follows ('(' :: r) := follows_of (by decide) (by decide) (by decide) (by decide) r
  have hnext : next? ('(' :: r) = some '(' := next?_cons (by decide) (by decide)
  have hread : term (' ' :: (t.text.toList ++ '(' :: r)) = some (t, '(' :: r) := by
    rw [skipsLayout_term.blank (by decide), term_text ht hfollows]
  have hat : next? (' ' :: (t.text.toList ++ '(' :: r)) ≠ some '@' := by
    rw [next?_blank (by decide)]
    exact ht.next?_ne_at hglobal _
  exact ⟨_, _, (body_call hat).trans (generic_of_terms .call (by decide)
    (terms_singleton hread (by rw [hnext]; decide))),
    not_formed rfl (.inr (.inr rfl)), '(', hnext, by decide⟩

theorem body_call_nil (r : List Char) :
    ∃ b s, body ("call".toList ++ ' ' :: '(' :: r) = some (b, s) ∧ ¬ b.Formed ∧ Stuck s := by
  have hnext : next? (' ' :: '(' :: r) = some '(' := by
    rw [next?_blank (by decide), next?_cons (by decide) (by decide)]
  have hterm : term (' ' :: '(' :: r) = none :=
    term_of_next?_none hnext (by decide) (by decide)
  exact ⟨_, _, (body_call (by rw [hnext]; decide)).trans
    (generic_of_terms .call (by decide) (terms_of_none hterm)),
    not_formed rfl (.inr (.inr rfl)), '(', hnext, by decide⟩

end Source

open Source

/-- The line of an instruction starts with its opcode. -/
theorem Function.exists_word (f : Function) (inst : Instruction) (r : List Char) :
    ∃ c t, (f.bodyText inst).toList ++ '\n' :: r = inst.opcode.name.toList ++ c :: t ∧
      isBlank c = true := by
  by_cases hgeneric : inst.opcode.isGeneric = true
  · rw [bodyText_of_isGeneric hgeneric]
    cases inst.operands with
    | nil => exact ⟨'\n', r, rfl, by decide⟩
    | cons o operands => exact ⟨' ', _, by simp [Body.text]; rfl, by decide⟩
  · unfold bodyText
    cases hop : inst.opcode with
    | phi => exact ⟨' ', _, by simp; rfl, by decide⟩
    | br =>
      dsimp only
      split <;> exact ⟨' ', _, by simp; rfl, by decide⟩
    | switch => exact ⟨' ', _, by simp; rfl, by decide⟩
    | call => exact ⟨' ', _, by simp; rfl, by decide⟩
    | _ => exact absurd (by rw [hop]; rfl) hgeneric

/-- The line of an instruction: its result, its opcode and the rest. -/
theorem Function.exists_line (f : Function) (inst : Instruction) (r : List Char) :
    ∃ c t, isBlank c = true ∧
      (f.bodyText inst).toList ++ '\n' :: r = inst.opcode.name.toList ++ c :: t ∧
      indented (f.instText inst) ++ '\n' :: r = '\n' :: ' ' :: ' ' ::
        ((resultText inst.printedName).toList ++ (inst.opcode.name.toList ++ c :: t)) := by
  obtain ⟨c, t, hword, hc⟩ := f.exists_word inst r
  refine ⟨c, t, hc, hword, ?_⟩
  rw [instText_eq, ← hword]
  simp [indented]

/-- The text of a block with this label and these instructions. -/
def Function.partText (f : Function) (part : String × List Instruction) : String :=
  part.1 ++ ":\n" ++ String.join (part.2.map fun inst => "  " ++ f.instText inst ++ "\n")

theorem Function.partText_eq (f : Function) (part : String × List Instruction) (r : List Char) :
    (f.partText part).toList ++ r = part.1.toList ++ ':' ::
      ((part.2.flatMap fun inst => indented (f.instText inst)) ++ '\n' :: r) := by
  rw [← lines_eq]
  simp [partText]

/-- What stands behind a section: the other sections and the brace. -/
def Function.behind (f : Function) (r : List Char) : Layout → List Char
  | [] => '\x7d' :: r
  | part :: P => '\n' :: ((f.partText part).toList ++ f.behind r P)

theorem Function.partText_behind (f : Function) (part : String × List Instruction) (P : Layout)
    (r : List Char) :
    ("\n".intercalate ((part :: P).map f.partText)).toList ++ '\x7d' :: r =
      (f.partText part).toList ++ f.behind r P := by
  induction P generalizing part with
  | nil => simp [behind]
  | cons part' P ih =>
    rw [behind, ← ih]
    simp

theorem Function.text_section (f : Function) {part : String × List Instruction}
    (h : ∀ inst ∈ part.2, inst.IsLegible) :
    (Section.mk part.1 (part.2.map f.statement)).text = f.partText part := by
  unfold Section.text partText
  dsimp only
  rw [List.map_map]
  congr 2
  refine List.map_congr_left fun inst hinst => ?_
  rw [← line_statement f (h inst hinst)]
  rfl

/-- A block of the layout, possibly under another label. -/
structure IsPart (L : Layout) (part : String × List Instruction) : Prop where
  label : IsName part.1
  listed : ∃ label, (label, part.2) ∈ L

/-- The lines of these instructions are read back in front of `next`. -/
structure ReadsBack (next : Option String) (insts : List Instruction) : Prop where
  legible : ∀ inst ∈ insts, inst.IsLegible
  closed : (∃ inst ∈ insts.getLast?, inst.IsBare) → ∀ label ∈ next, ¬ StartsTerm label

namespace Source.Resolved

open Reader

variable {d : Definition} {scope : Scope} {L : Layout} {f : Function} {inst : Instruction}
  {next : Option String} {r : List Char}

theorem printable_term (h : Resolved d scope L f) (hinst : inst ∈ f.insts) {o : Operand}
    (ho : o ∈ inst.operands) : (f.term o).Printable :=
  Function.printable_term h.wellNamed (h.known_of_mem hinst ho)

/-! The three kinds of lines that are not read back. -/

theorem exists_body_switch (h : Resolved d scope L f) (hinst : inst ∈ f.insts)
    (hop : inst.opcode = .switch) (htargets : inst.targets = []) (hr : Section.Follows next r) :
    ∃ b s, body ((f.bodyText inst).toList ++ '\n' :: r) = some (b, s) ∧ ¬ b.Formed ∧
      Derailed r s := by
  cases hoperands : inst.operands with
  | nil =>
    have htext : (f.bodyText inst).toList ++ '\n' :: r =
        "switch".toList ++ ' ' :: ',' :: ' ' :: '\n' :: r := by
      simp [Function.bodyText, hop, htargets, hoperands]
    rw [htext]
    obtain ⟨b, s, hbody, hb, hs⟩ := body_switch_nil (' ' :: '\n' :: r)
    exact ⟨b, s, hbody, hb, .inl hs⟩
  | cons o operands =>
    have htext : (f.bodyText inst).toList ++ '\n' :: r =
        "switch".toList ++ ' ' :: ((f.term o).text.toList ++ ',' :: ' ' :: '\n' :: r) := by
      simp [Function.bodyText, hop, htargets, hoperands, Function.text_term]
    rw [htext]
    exact body_switch_comma (h.printable_term hinst (by simp [hoperands])) hr

theorem exists_body_call (h : Resolved d scope L f) (hinst : inst ∈ f.insts)
    (hop : inst.opcode = .call) (hcallee : ¬ ∃ callee, inst.operand? 0 = some (.global callee))
    (r : List Char) :
    ∃ b s, body ((f.bodyText inst).toList ++ '\n' :: r) = some (b, s) ∧ ¬ b.Formed ∧
      Stuck s := by
  cases hoperands : inst.operands with
  | nil =>
    have htext : (f.bodyText inst).toList ++ '\n' :: r =
        "call".toList ++ ' ' :: '(' :: ')' :: '\n' :: r := by
      simp [Function.bodyText, hop, hoperands]
    rw [htext]
    exact body_call_nil _
  | cons o operands =>
    have htext : (f.bodyText inst).toList ++ '\n' :: r = "call".toList ++ ' ' ::
        ((f.term o).text.toList ++ '(' ::
          ((", ".intercalate (operands.map f.operandText)).toList ++ ')' :: '\n' :: r)) := by
      simp [Function.bodyText, hop, hoperands, Function.text_term]
    rw [htext]
    refine body_call_bracket (h.printable_term hinst (by simp [hoperands])) (fun callee ho => ?_) _
    refine hcallee ⟨callee, ?_⟩
    rw [Instruction.operand?, hoperands, Function.eq_global_of_term ho]
    rfl

theorem exists_body_br (hop : inst.opcode = .br) (htargets : inst.targets = []) {label : String}
    (hr : Section.Follows (some label) r) (hstarts : StartsTerm label) :
    ∃ b s, body ((f.bodyText inst).toList ++ '\n' :: r) = some (b, s) ∧ ¬ b.Formed ∧
      Derailed r s := by
  have htext : (f.bodyText inst).toList ++ '\n' :: r = "br".toList ++ ' ' :: '\n' :: r := by
    simp [Function.bodyText, hop, htargets]
  rw [htext]
  exact body_br_label hr hstarts

/-- A line is not read back if the instruction is not legible, or if it is a jump without targets
    in front of a label that looks like an operand. -/
theorem exists_derailed (h : Resolved d scope L f) (hinst : inst ∈ f.insts)
    (hfollows : inst.isTerminator = true → Section.Follows next r)
    (hbad : ¬ inst.IsLegible ∨
      inst.opcode = .br ∧ inst.targets = [] ∧ ∃ label ∈ next, StartsTerm label) :
    ∃ st s, statement (indented (f.instText inst) ++ '\n' :: r) = some (st, s) ∧
      ¬ st.body.Formed ∧ (Stuck s ∨ inst.isTerminator = true ∧ Derailed r s) := by
  obtain ⟨b, s, hbody, hb, hs⟩ : ∃ b s,
      body ((f.bodyText inst).toList ++ '\n' :: r) = some (b, s) ∧ ¬ b.Formed ∧
        (Stuck s ∨ inst.isTerminator = true ∧ Derailed r s) := by
    rcases hbad with hbad | ⟨hop, htargets, label, rfl, hstarts⟩
    · obtain ⟨st, -, hdenotes, -⟩ := h.exists_statement (h.mem_insts.1 hinst)
      by_cases hswitch : inst.opcode = .switch ∧ inst.targets = []
      · have hterminator : inst.isTerminator = true := by
          rw [Instruction.isTerminator, hswitch.1]
          rfl
        obtain ⟨b, s, hbody, hb, hs⟩ :=
          h.exists_body_switch hinst hswitch.1 hswitch.2 (hfollows hterminator)
        exact ⟨b, s, hbody, hb, .inr ⟨hterminator, hs⟩⟩
      · have hcall : inst.opcode = .call ∧ ¬ ∃ callee, inst.operand? 0 = some (.global callee) := by
          by_contra hnot
          refine hbad (hdenotes.isLegible (fun hop htargets => hswitch ⟨hop, htargets⟩) ?_)
          exact fun hop => not_not.1 fun hcallee => hnot ⟨hop, hcallee⟩
        obtain ⟨b, s, hbody, hb, hs⟩ := h.exists_body_call hinst hcall.1 hcall.2 r
        exact ⟨b, s, hbody, hb, .inl hs⟩
    · have hterminator : inst.isTerminator = true := by
        rw [Instruction.isTerminator, hop]
        rfl
      obtain ⟨b, s, hbody, hb, hs⟩ := exists_body_br hop htargets (hfollows hterminator) hstarts
      exact ⟨b, s, hbody, hb, .inr ⟨hterminator, hs⟩⟩
  obtain ⟨c, t, hc, hbodyText, hline⟩ := f.exists_line inst r
  rw [hbodyText] at hbody
  refine ⟨⟨inst.printedName, b⟩, s, ?_, hb, hs⟩
  rw [hline, skipsLayout_statement.blank (by decide), skipsLayout_statement.blank (by decide),
    skipsLayout_statement.blank (by decide)]
  exact statement_of_body (h.isName_printedName hinst) hc hbody

/-! ## Sections -/

theorem isPart (h : Resolved d scope L f) {part : String × List Instruction} (hpart : part ∈ L) :
    IsPart L part :=
  ⟨h.isName_label hpart, part.1, hpart⟩

section

variable {part : String × List Instruction}

theorem mem_insts_of_isPart (h : Resolved d scope L f) (hpart : IsPart L part)
    (hinst : inst ∈ part.2) : inst ∈ f.insts := by
  obtain ⟨label, hlisted⟩ := hpart.listed
  exact h.mem_insts.2 (Layout.mem_instructions hlisted hinst)

/-- Legible lines in front of one that is not read back. -/
theorem exists_derailed_lines (h : Resolved d scope L f) (hpart : IsPart L part)
    {good rest : List Instruction} (hsplit : part.2 = good ++ inst :: rest)
    (hgood : ∀ inst ∈ good, inst.IsLegible) (hr : Section.Follows next r)
    (hbad : ¬ inst.IsLegible ∨
      inst.opcode = .br ∧ inst.targets = [] ∧ ∃ label ∈ next, StartsTerm label) :
    ∃ sts s, many statement ((part.2.flatMap fun inst => indented (f.instText inst)) ++ '\n' :: r) =
      some (sts, s) ∧ (∃ st ∈ sts, ¬ st.body.Formed) ∧
        (Stuck s ∨ sts.length = part.2.length ∧ Derailed r s) := by
  have hmem : ∀ inst' ∈ part.2, inst' ∈ f.insts := fun _ => h.mem_insts_of_isPart hpart
  have hinst : inst ∈ f.insts := hmem inst (by simp [hsplit])
  have hrest : inst.isTerminator = true → rest = [] := by
    intro hterminator
    obtain ⟨label, hlisted⟩ := hpart.listed
    have horder := h.sound.order _ hlisted
    dsimp only at horder
    rw [hsplit] at horder
    cases rest with
    | nil => rfl
    | cons second rest =>
      have hfirst := (List.isChain_cons_cons.1 horder.right_of_append).1.1
      rw [hterminator] at hfirst
      cases hfirst
  obtain ⟨t, ht⟩ : ∃ t,
      (rest.flatMap fun inst => indented (f.instText inst)) ++ '\n' :: r = '\n' :: t := by
    cases rest <;> simp [indented]
  have hsame : inst.isTerminator = true → t = r := by
    intro hterminator
    rw [hrest hterminator] at ht
    exact (List.cons.inj ht).2.symm
  obtain ⟨st, s, hread, hst, hs⟩ :=
    h.exists_derailed (r := t) hinst (fun hterminator => hsame hterminator ▸ hr) hbad
  obtain ⟨c, u, hc, -, hline⟩ := f.exists_line inst t
  have hlines : (part.2.flatMap fun inst => indented (f.instText inst)) ++ '\n' :: r =
      ((good.map f.statement).flatMap fun st => indented st.line) ++ '\n' :: ' ' :: ' ' ::
        ((resultText inst.printedName).toList ++ (inst.opcode.name.toList ++ c :: u)) := by
    have hflat : (good.flatMap fun inst => indented (f.instText inst)) =
        (good.map f.statement).flatMap fun st => indented st.line := by
      rw [List.flatMap_map]
      exact List.flatMap_congr fun inst hinst => by rw [f.line_statement (hgood inst hinst)]
    rw [← hline, ← hflat, ← ht, hsplit]
    simp
  rw [hline, skipsLayout_statement.blank (by decide)] at hread
  have hfits : ∀ st ∈ good.map f.statement, st.Fits Body.Printable := by
    rw [List.forall_mem_map]
    exact fun inst' hinst' =>
      h.fits_statement (hmem inst' (by simp [hsplit, hinst'])) (hgood inst' hinst')
  obtain ⟨w, hw, hsteps⟩ := steps_statements hfits
    (fun st _ => endsBefore_statement (h.isName_printedName hinst) inst.opcode hc u st.body)
  have hlast : statement (w ++ ' ' :: ' ' ::
      ((resultText inst.printedName).toList ++ (inst.opcode.name.toList ++ c :: u))) =
        some (st, s) := by
    rw [skipsLayout_statement.blanks hw, hread]
  have hend : statement s = none := by
    rcases hs with hs | ⟨-, hs⟩
    · exact Derailed.statement_eq_none (r := t) (.inl hs)
    · exact hs.statement_eq_none
  have hlength : (good.map f.statement).length ≤
      ((good.map f.statement).flatMap fun st => indented st.line).length :=
    length_le_length_flatMap (by simp [indented])
  rw [hlines]
  refine ⟨_, s, many_eq (hsteps.append (.cons hlast (.nil s))) hend ?_, ⟨st, by simp, hst⟩, ?_⟩
  · simp only [List.length_append, List.length_cons, List.length_nil] at hlength ⊢
    omega
  · refine hs.imp_right ?_
    rintro ⟨hterminator, hs⟩
    refine ⟨?_, hsame hterminator ▸ hs⟩
    simp [hsplit, hrest hterminator]

/-- If a section is not read back, there is a first line that is not. -/
theorem exists_bad_line (h : Resolved d scope L f) (hpart : IsPart L part)
    (hbad : ¬ ReadsBack next part.2) :
    ∃ inst good rest, part.2 = good ++ inst :: rest ∧ (∀ inst ∈ good, inst.IsLegible) ∧
      (¬ inst.IsLegible ∨
        inst.opcode = .br ∧ inst.targets = [] ∧ ∃ label ∈ next, StartsTerm label) := by
  by_cases hall : ∀ inst ∈ part.2, inst.IsLegible
  · -- All lines are legible, so the last one takes something from the next label.
    have hopen : ¬ ((∃ inst ∈ part.2.getLast?, inst.IsBare) →
        ∀ label ∈ next, ¬ StartsTerm label) := fun hclosed => hbad ⟨hall, hclosed⟩
    push Not at hopen
    obtain ⟨⟨inst, hlast, hbare⟩, hlabel⟩ := hopen
    obtain ⟨label, hlisted⟩ := hpart.listed
    obtain ⟨inst', hlast', hterminator⟩ := h.sound.terminated _ hlisted
    obtain rfl : inst' = inst := Option.some.inj (hlast'.symm.trans hlast)
    obtain ⟨good, hsplit⟩ := List.getLast?_eq_some_iff.1 hlast
    refine ⟨inst', good, [], hsplit, fun inst hinst => hall inst (by simp [hsplit, hinst]), ?_⟩
    refine .inr ⟨hbare.1.resolve_left fun hphi => ?_, hbare.2.2, hlabel⟩
    rw [Instruction.isTerminator, hphi] at hterminator
    cases hterminator
  · classical
    push Not at hall
    obtain ⟨inst', hinst', hnot⟩ := hall
    have hsome : (part.2.find? fun inst => decide (¬ inst.IsLegible)).isSome := by
      rw [List.find?_isSome]
      exact ⟨inst', hinst', by simpa using hnot⟩
    obtain ⟨inst, hfind⟩ := Option.isSome_iff_exists.1 hsome
    obtain ⟨hfirst, good, rest, hsplit, hgood⟩ := List.find?_eq_some_iff_append.1 hfind
    exact ⟨inst, good, rest, hsplit, fun inst hinst => by simpa using hgood inst hinst,
      .inl (by simpa using hfirst)⟩

/-- A section in which some line is not read back. -/
theorem labelled_derailed (h : Resolved d scope L f) (hpart : IsPart L part)
    (hr : Section.Follows next r) (hbad : ¬ ReadsBack next part.2) :
    ∃ x s, labelled ((f.partText part).toList ++ r) = some (x, s) ∧
      (∃ st ∈ x.statements, ¬ st.body.Formed) ∧
        (Stuck s ∨ x.statements.length = part.2.length ∧ Derailed r s) := by
  obtain ⟨inst, good, rest, hsplit, hgood, hinst⟩ := h.exists_bad_line hpart hbad
  obtain ⟨sts, s, hmany, hsts, hs⟩ := h.exists_derailed_lines hpart hsplit hgood hr hinst
  refine ⟨⟨part.1, sts⟩, s, ?_, hsts, hs⟩
  unfold labelled
  rw [f.partText_eq, bind_of_some (labelDef_name hpart.label _), bind_of_some hmany]
  rfl

end

/-- What can be read of a section: all of it, or something up to a place where reading has gone
    wrong. -/
theorem labelled_cases (h : Resolved d scope L f) {part : String × List Instruction}
    (hpart : IsPart L part) (hr : Section.Follows next r)
    (hopen : (∃ inst ∈ part.2.getLast?, (f.body inst).Open ∧ ¬ inst.IsBare) →
      ∀ label ∈ next, ¬ StartsTerm label)
    {x : Section} {s : List Char} (hx : labelled ((f.partText part).toList ++ r) = some (x, s)) :
    (ReadsBack next part.2 ∧ x = ⟨part.1, part.2.map f.statement⟩ ∧
      ∃ w, (∀ c ∈ w, isBlank c = true) ∧ s = w ++ r) ∨
    (∃ st ∈ x.statements, ¬ st.body.Formed) ∧
      (Stuck s ∨ x.statements.length = part.2.length ∧ Derailed r s) := by
  by_cases hgood : ReadsBack next part.2
  · left
    have hends : Section.EndsBefore ⟨part.1, part.2.map f.statement⟩ r := by
      cases hr with
      | brace r => exact Section.endsBefore_brace _ r
      | label hlabel r =>
        refine Section.endsBefore_label hlabel ?_ r
        rintro ⟨st, hst, hst'⟩
        dsimp only at hst
        rw [List.getLast?_map] at hst
        obtain ⟨inst, hinst, rfl⟩ := Option.map_eq_some_iff.1 hst
        by_cases hbare : inst.IsBare
        · exact hgood.closed ⟨inst, hinst, hbare⟩ _ rfl
        · exact hopen ⟨inst, hinst, hst', hbare⟩ _ rfl
    obtain ⟨w, hw, hread⟩ := labelled_text (h.fits_section hpart.label fun inst hinst =>
      ⟨h.mem_insts_of_isPart hpart hinst, hgood.legible inst hinst⟩) hends
    rw [f.text_section hgood.legible] at hread
    cases hread.symm.trans hx
    exact ⟨hgood, rfl, w, hw, rfl⟩
  · right
    obtain ⟨x', s', hread, hst, hs⟩ := h.labelled_derailed hpart hr hgood
    cases hread.symm.trans hx
    exact ⟨hst, hs⟩

theorem label_of_labelled {label : String} (h : IsName label) {x : Section} {s : List Char}
    (hx : labelled (label.toList ++ ':' :: r) = some (x, s)) : x.label = label := by
  unfold labelled at hx
  rw [bind_of_some (labelDef_name h r), bind_apply] at hx
  obtain ⟨y, -, hy⟩ := Option.bind_eq_some_iff.1 hx
  cases hy
  rfl

/-- Behind the last section there is only the brace. -/
theorem brace_of_steps {w s t : List Char} (hw : ∀ c ∈ w, isBlank c = true) {xs : List Section}
    (hsteps : Steps labelled xs (w ++ '\x7d' :: r) s) (hbrace : symbol '\x7d' s = some ((), t)) :
    xs = [] ∧ t = r := by
  cases hsteps with
  | nil =>
    rw [(skipsLayout_symbol _).blanks hw, symbol_cons (by decide) (by decide)] at hbrace
    cases hbrace
    exact ⟨rfl, rfl⟩
  | cons hx _ =>
    rw [skipsLayout_labelled.blanks hw, labelled_brace] at hx
    cases hx

theorem false_of_stuck {s t u : List Char} (h : Stuck u) {xs : List Section}
    (hsteps : Steps labelled xs u s) (hbrace : symbol '\x7d' s = some ((), t)) : False := by
  cases hsteps with
  | nil =>
    rw [Derailed.symbol_brace (r := []) (.inl h)] at hbrace
    cases hbrace
  | cons hx _ =>
    rw [h.labelled_eq_none] at hx
    cases hx

/-- Where there is a label, some section was read. -/
theorem exists_labelled {part : String × List Instruction} (hpart : IsPart L part)
    {w s t : List Char} (hw : ∀ c ∈ w, isBlank c = true) {xs : List Section}
    (hsteps : Steps labelled xs (w ++ ((f.partText part).toList ++ r)) s)
    (hbrace : symbol '\x7d' s = some ((), t)) :
    ∃ x u xs', xs = x :: xs' ∧ labelled ((f.partText part).toList ++ r) = some (x, u) ∧
      Steps labelled xs' u s := by
  cases hsteps with
  | nil =>
    rw [(skipsLayout_symbol _).blanks hw, f.partText_eq,
      symbol_of_next? (hpart.label.next?_ne (by decide) _)] at hbrace
    cases hbrace
  | cons hx hsteps =>
    rw [skipsLayout_labelled.blanks hw] at hx
    exact ⟨_, _, _, rfl, hx, hsteps⟩

/-- Sections are read one for each block, with as many statements as there are instructions. If
    they are in printed form or have the right labels, all lines are read back. -/
theorem readsBack_of_steps (h : Resolved d scope L f) {part : String × List Instruction}
    {P : Layout} (hP : ∀ q ∈ part :: P, IsPart L q)
    (hopen : (part :: P).IsChain fun q q' =>
      (∃ inst ∈ q.2.getLast?, (f.body inst).Open ∧ ¬ inst.IsBare) → ¬ StartsTerm q'.1)
    {w s t : List Char} (hw : ∀ c ∈ w, isBlank c = true) {xs : List Section}
    (hsteps : Steps labelled xs (w ++ ((f.partText part).toList ++ f.behind r P)) s)
    (hbrace : symbol '\x7d' s = some ((), t)) :
    t = r ∧ List.Forall₂ (fun x q => x.statements.length = q.2.length) xs (part :: P) ∧
      ((∀ x ∈ xs, ∀ st ∈ x.statements, st.body.Formed) ∨
          List.Forall₂ (fun x q => x.label = q.1) xs (part :: P) →
        (∀ q ∈ part :: P, ∀ inst ∈ q.2, inst.IsLegible) ∧ (part :: P).IsChain fun q q' =>
          (∃ inst ∈ q.2.getLast?, inst.IsBare) → ¬ StartsTerm q'.1) := by
  induction P generalizing part xs w with
  | nil =>
    have hpart := hP part List.mem_cons_self
    obtain ⟨x, u, xs, rfl, hx, hsteps⟩ := exists_labelled hpart hw hsteps hbrace
    rcases h.labelled_cases hpart (.brace r) (fun _ => by simp) hx with
      ⟨hgood, rfl, w', hw', rfl⟩ | ⟨-, hstuck | ⟨-, hstuck | hcut⟩⟩
    · obtain ⟨rfl, rfl⟩ := brace_of_steps hw' hsteps hbrace
      refine ⟨rfl, .cons (by simp) .nil, fun _ => ⟨?_, .singleton _⟩⟩
      simpa using hgood.legible
    · exact (false_of_stuck hstuck hsteps hbrace).elim
    · exact (false_of_stuck hstuck hsteps hbrace).elim
    · nomatch hcut
  | cons part' P ih =>
    rw [List.forall_mem_cons] at hP
    obtain ⟨hpart, hP⟩ := hP
    have hpart' := hP part' List.mem_cons_self
    obtain ⟨x, u, xs, rfl, hx, hsteps⟩ := exists_labelled hpart hw hsteps hbrace
    rw [Function.behind, f.partText_eq part'] at hx
    rw [List.isChain_cons_cons] at hopen
    rcases h.labelled_cases hpart (.label hpart'.label _)
      (fun hlast label hlabel => by cases hlabel; exact hopen.1 hlast) hx with
      ⟨hgood, rfl, w', hw', rfl⟩ | ⟨⟨st, hst, hnot⟩, hstuck | ⟨hcount, hstuck | hcut⟩⟩
    · rw [← f.partText_eq part', ← List.singleton_append, ← List.append_assoc] at hsteps
      have hblanks : ∀ c ∈ w' ++ ['\n'], isBlank c = true :=
        List.forall_mem_append.2 ⟨hw', isBlank_newline⟩
      obtain ⟨ht, hcounts, hback⟩ := ih hP hopen.2 hblanks hsteps
      refine ⟨ht, .cons (by simp) hcounts, fun hxs => ?_⟩
      obtain ⟨hlegible, hclosed⟩ := hback (hxs.imp (fun hxs => (List.forall_mem_cons.1 hxs).2)
        fun hxs => (List.forall₂_cons.1 hxs).2)
      exact ⟨List.forall_mem_cons.2 ⟨hgood.legible, hlegible⟩,
        List.isChain_cons_cons.2 ⟨fun hbare => hgood.closed hbare _ rfl, hclosed⟩⟩
    · exact (false_of_stuck hstuck hsteps hbrace).elim
    · exact (false_of_stuck hstuck hsteps hbrace).elim
    · -- Reading goes on with what is left of the next label.
      obtain ⟨rest, hrest, hne, rfl⟩ := hcut.exists_rest hpart'.label
      rw [← f.partText_eq (rest, part'.2)] at hsteps
      have hrestPart : ∀ q ∈ (rest, part'.2) :: P, IsPart L q := by
        rw [List.forall_mem_cons] at hP ⊢
        exact ⟨⟨hrest, hP.1.listed⟩, hP.2⟩
      have hrestOpen : ((rest, part'.2) :: P).IsChain fun q q' =>
          (∃ inst ∈ q.2.getLast?, (f.body inst).Open ∧ ¬ inst.IsBare) → ¬ StartsTerm q'.1 := by
        rw [List.isChain_cons] at hopen ⊢
        exact hopen.2
      obtain ⟨ht, hcounts, -⟩ := ih hrestPart hrestOpen (w := []) (by simp) hsteps
      obtain ⟨y, v, ys, rfl, hy, -⟩ :=
        exists_labelled (w := []) (hrestPart _ List.mem_cons_self) (by simp) hsteps hbrace
      rw [f.partText_eq] at hy
      refine ⟨ht, .cons hcount ?_, fun hxs => ?_⟩
      · cases hcounts with
        | cons hy hcounts => exact .cons hy hcounts
      · rcases hxs with hformed | hlabels
        · exact absurd (hformed x List.mem_cons_self st hst) hnot
        · cases hlabels with
          | cons _ hlabels =>
            cases hlabels with
            | cons hlabel _ => exact absurd ((label_of_labelled hrest hy).symm.trans hlabel) hne

/-! ## Functions and whole texts -/

theorem text_eq (h : Resolved d scope L f) (r : List Char) :
    f.text.toList ++ r = ("define @" ++ f.name ++ "(" ++
      ", ".intercalate (f.params.map fun p => "%" ++ p) ++ ") \x7b\n").toList ++
        (("\n".intercalate (L.map f.partText)).toList ++ '\x7d' :: '\n' :: r) := by
  have hblocks : f.blocks.values.map f.blockText = L.map f.partText := by
    conv_rhs => rw [← h.parts, List.map_map]
    rfl
  unfold Function.text
  rw [hblocks]
  simp

/-- If what is read of a function is in printed form or has the right labels, then the function is
    legible. In any case there are no more sections and statements than blocks and instructions. -/
theorem legible_of_definition (h : Resolved d scope L f) {d' : Definition} {s : List Char}
    (hread : definition (f.text.toList ++ r) = some (d', s)) :
    s = '\n' :: r ∧ d'.sections.length = L.length ∧
      d'.statements.length = L.instructions.length ∧
      ((∀ st ∈ d'.statements, st.body.Formed) ∨
          d'.sections.map Section.label = f.blocks.values.map Block.label → f.Legible) := by
  obtain ⟨part, P, rfl⟩ := List.exists_cons_of_ne_nil h.sound.nonempty
  rw [h.text_eq, definition_header h.wellNamed.name h.wellNamed.params,
    f.partText_behind] at hread
  obtain ⟨⟨xs, t⟩, hmany, hread⟩ := Option.bind_eq_some_iff.1 hread
  obtain ⟨⟨_, t'⟩, hbrace, heq⟩ := Option.map_eq_some_iff.1 hread
  cases heq
  obtain ⟨ht, hcounts, hback⟩ :=
    h.readsBack_of_steps (fun q hq => h.isPart hq) h.isChain_open isBlank_newline
      (many_steps hmany) hbrace
  refine ⟨ht, hcounts.length_eq, ?_, fun hd => ?_⟩
  · have hlengths : xs.map (fun x => x.statements.length) =
        (part :: P).map fun q => q.2.length := by
      rw [← List.forall₂_eq_eq_eq, List.forall₂_map_left_iff, List.forall₂_map_right_iff]
      exact hcounts
    rw [Definition.statements, Layout.instructions, List.length_flatMap, List.length_flatMap,
      ← hlengths]
  · have hxs : (∀ x ∈ xs, ∀ st ∈ x.statements, st.body.Formed) ∨
        List.Forall₂ (fun x q => x.label = q.1) xs (part :: P) := by
      refine hd.imp (fun hd x hx st hst => hd st (List.mem_flatMap.2 ⟨x, hx, hst⟩)) fun hd => ?_
      rw [← h.labels_parts, ← List.forall₂_eq_eq_eq, List.forall₂_map_left_iff,
        List.forall₂_map_right_iff] at hd
      exact hd
    obtain ⟨hlegible, hclosed⟩ := hback hxs
    constructor
    · intro inst hinst
      obtain ⟨q, hq, hmem⟩ := List.mem_flatMap.1 (h.mem_insts.1 hinst)
      exact hlegible q hq inst hmem
    · rw [← h.parts, List.isChain_map] at hclosed
      exact hclosed

end Source.Resolved

namespace Source

open Reader

/-- If what is read of a text is in printed form or has the right labels, then all functions in it
    are legible. -/
theorem legible_of_steps {fs : List Function}
    (hfs : ∀ f ∈ fs, ∃ d scope L, Resolved d scope L f) {w s : List Char}
    (hw : ∀ c ∈ w, isBlank c = true) {ds : List Definition}
    (hsteps : Steps definition ds (w ++ ("\n".intercalate (fs.map Function.text)).toList) s)
    (hend : token atEnd s = some ((), [])) :
    (∀ d ∈ ds, d.sections.length ≤ UInt32.size ∧ d.statements.length ≤ UInt32.size) ∧
    ((∀ d ∈ ds, ∀ st ∈ d.statements, st.body.Formed) ∨
        List.Forall₂ (fun d f => d.sections.map Section.label = f.blocks.values.map Block.label)
          ds fs →
      ∀ f ∈ fs, f.Legible) := by
  induction fs generalizing ds w with
  | nil =>
    cases hsteps with
    | nil => exact ⟨by simp, by simp⟩
    | cons hread _ =>
      rw [skipsLayout_definition.blanks hw] at hread
      cases hread
  | cons f fs ih =>
    rw [List.forall_mem_cons] at hfs
    obtain ⟨⟨d, scope, L, h⟩, hfs⟩ := hfs
    obtain ⟨rest, htext, hrest⟩ : ∃ rest,
        ("\n".intercalate ((f :: fs).map Function.text)).toList = f.text.toList ++ rest ∧
          ∃ w, (∀ c ∈ w, isBlank c = true) ∧
            rest = w ++ ("\n".intercalate (fs.map Function.text)).toList := by
      cases fs with
      | nil => exact ⟨[], by simp, [], by simp⟩
      | cons f' fs => exact ⟨_, by simp, ['\n'], isBlank_newline, rfl⟩
    obtain ⟨w', hw', rfl⟩ := hrest
    rw [htext] at hsteps
    cases hsteps with
    | nil =>
      -- No function was read, but there is one.
      obtain ⟨t, ht⟩ : ∃ t, f.text.toList ++
          (w' ++ ("\n".intercalate (fs.map Function.text)).toList) = 'd' :: t := by
        rw [h.text_eq]
        exact ⟨_, by simp; rfl⟩
      rw [(SkipsLayout.token atEnd).blanks hw, ht] at hend
      cases hend
    | @cons d' ds _ u _ hread hsteps =>
      rw [skipsLayout_definition.blanks hw] at hread
      obtain ⟨rfl, hsections, hstatements, hfirst⟩ := h.legible_of_definition hread
      rw [← List.cons_append] at hsteps
      have hblanks : ∀ c ∈ '\n' :: w', isBlank c = true := List.forall_mem_cons.2 ⟨rfl, hw'⟩
      obtain ⟨hfew, hrest⟩ := ih hfs hblanks hsteps
      constructor
      · rw [List.forall_mem_cons, hsections, hstatements]
        exact ⟨⟨h.numbered.few_blocks, h.numbered.few_instructions⟩, hfew⟩
      · intro hds
        rw [List.forall_mem_cons]
        rcases hds with hds | hds
        · rw [List.forall_mem_cons] at hds
          exact ⟨hfirst (.inl hds.1), hrest (.inl hds.2)⟩
        · rw [List.forall₂_cons] at hds
          exact ⟨hfirst (.inr hds.1), hrest (.inr hds.2)⟩

end Source

end FlowFacts
