import FlowFacts.Proofs.ReadBack

/-!
# What trees of texts look like

Every tree that `parse?` returns fits the grammar: its names and literals are made of the right
characters, and no section ends with an open instruction in front of a label that could be taken
for an operand, since such a label would have been taken for one.

Main results:

* `Reader.Yields` and its rules: what all values that a reader returns have in common.
* `Source.term_of_statement`: behind an open instruction there was no operand.
* `Source.parse?_fits`: the trees of a text fit the grammar.
-/

namespace FlowFacts

namespace Reader

variable {α β : Type} {p : Reader α} {P : α → Prop} {Q : β → Prop} {s r : List Char}

theorem bind_eq_some {f : α → Reader β} {b : β} (h : (p >>= f) s = some (b, r)) :
    ∃ a t, p s = some (a, t) ∧ f a t = some (b, r) := by
  rw [bind_apply] at h
  obtain ⟨⟨a, t⟩, ha, hb⟩ := Option.bind_eq_some_iff.1 h
  exact ⟨a, t, ha, hb⟩

/-- Whatever a reader returns satisfies `P`. -/
def Yields (p : Reader α) (P : α → Prop) : Prop := ∀ s a r, p s = some (a, r) → P a

namespace Yields

theorem trivial (p : Reader α) : p.Yields fun _ => True := fun _ _ _ _ => True.intro

theorem pure {a : α} (h : P a) : Yields (pure a) P := by
  intro s b r hb
  cases hb
  exact h

theorem bind {f : α → Reader β} (hp : p.Yields P) (hf : ∀ a, P a → (f a).Yields Q) :
    Yields (p >>= f) Q := by
  intro s b r h
  obtain ⟨a, t, ha, hb⟩ := bind_eq_some h
  exact hf a (hp s a t ha) t b r hb

/-- A part whose value does not matter. -/
theorem pass {f : α → Reader β} (hf : ∀ a, (f a).Yields Q) : Yields (p >>= f) Q :=
  (trivial p).bind fun a _ => hf a

theorem map {g : α → β} (hp : p.Yields P) (hg : ∀ a, P a → Q (g a)) : Yields (g <$> p) Q := by
  intro s b r h
  rw [map_apply] at h
  obtain ⟨⟨a, t⟩, ha, heq⟩ := Option.map_eq_some_iff.1 h
  cases heq
  exact hg a (hp s a t ha)

theorem seqRight {q : Reader β} (hq : q.Yields Q) (p : Reader α) : Yields (p *> q) Q := by
  intro s b r h
  rw [seqRight_apply] at h
  obtain ⟨x, -, hb⟩ := Option.bind_eq_some_iff.1 h
  exact hq _ b r hb

theorem seqLeft (hp : p.Yields P) (q : Reader β) : Yields (p <* q) P := by
  intro s a r h
  rw [seqLeft_apply] at h
  obtain ⟨x, hx, h⟩ := Option.bind_eq_some_iff.1 h
  obtain ⟨y, -, heq⟩ := Option.map_eq_some_iff.1 h
  cases heq
  exact hp s _ _ hx

theorem orElse {q : Reader α} (hp : p.Yields P) (hq : q.Yields P) : Yields (p <|> q) P := by
  intro s a r h
  rw [orElse_apply, Option.or_eq_some_iff] at h
  rcases h with h | ⟨-, h⟩
  · exact hp s a r h
  · exact hq s a r h

theorem option (hp : p.Yields P) : Yields (Reader.option p) fun found => ∀ a ∈ found, P a := by
  intro s found r h a ha
  unfold Reader.option at h
  split at h
  · rename_i b t hb
    cases h
    cases ha
    exact hp s _ _ hb
  · cases h
    cases ha

theorem many (hp : p.Yields P) : Yields (Reader.many p) fun items => ∀ a ∈ items, P a := by
  intro s items r h a ha
  obtain ⟨s', r', hread⟩ := (many_steps h).exists_read a ha
  exact hp s' a r' hread

theorem sepBy1 (hp : p.Yields P) (sep : Reader β) :
    Yields (Reader.sepBy1 p sep) fun items => ∀ a ∈ items, P a := by
  refine hp.bind fun first hfirst => (hp.seqRight sep).many.bind fun rest hrest => .pure ?_
  intro a ha
  rcases List.mem_cons.1 ha with rfl | ha
  · exact hfirst
  · exact hrest a ha

end Yields

end Reader

namespace Source

open Reader

variable {s t r : List Char}

/-! ## Tokens and operands -/

theorem Yields.token {α : Type} {p : Reader α} {P : α → Prop} (hp : p.Yields P) :
    (token p).Yields P := fun _ a r h => hp _ a r h

theorem ident_yields : ident.Yields IsName := by
  intro s name r h
  rw [ident, map_apply] at h
  obtain ⟨⟨w, t⟩, hw, heq⟩ := Option.map_eq_some_iff.1 h
  cases heq
  obtain ⟨hne, hall, -, -⟩ := span1_eq_some hw
  exact ⟨by simpa using hne, by simpa using hall⟩

theorem valueName_yields : valueName.Yields IsName := Yields.token (.seqRight ident_yields _)

theorem globalName_yields : globalName.Yields IsName := Yields.token (.seqRight ident_yields _)

theorem labelDef_yields : labelDef.Yields IsName := Yields.token (.seqLeft ident_yields _)

theorem labelRef_yields : labelRef.Yields IsName := .seqRight valueName_yields _

theorem integer_yields : integer.Yields IsLiteral := by
  refine Yields.token (.pass fun sign => ?_)
  intro s literal r h
  obtain ⟨digits, t, hdigits, h⟩ := bind_eq_some h
  cases h
  obtain ⟨hne, hall, -, -⟩ := span1_eq_some hdigits
  refine ⟨digits, hne, hall, ?_⟩
  split_ifs
  · exact .inr String.toList_ofList
  · exact .inl String.toList_ofList

theorem term_yields : term.Yields Term.Printable := by
  refine Yields.seqRight ?_ _
  refine .orElse (.map valueName_yields fun _ => id) (.orElse (.map globalName_yields fun _ => id)
    (.orElse (.map integer_yields fun _ => id) (.orElse ?_ ?_)))
  · exact Yields.seqRight (.pure trivial) _
  · exact Yields.seqRight (.pure trivial) _

theorem terms_yields : terms.Yields fun ts => ∀ t ∈ ts, t.Printable := by
  refine (Yields.sepBy1 term_yields _).option.bind fun found hfound => .pure ?_
  cases found with
  | none => simp
  | some ts => exact hfound ts rfl

/-! ## Instructions and sections -/

theorem body_yields : body.Yields Body.WellNamed := by
  refine .orElse ?phi (.orElse ?condBr (.orElse ?br (.orElse ?switch (.orElse ?call ?generic))))
  case phi =>
    have hincoming : incoming.Yields fun p => p.1.Printable ∧ IsName p.2 :=
      .pass fun _ => .bind term_yields fun _ hterm => .pass fun _ =>
        .bind valueName_yields fun _ hlabel => .pass fun _ => .pure ⟨hterm, hlabel⟩
    exact .pass fun _ => (hincoming.sepBy1 _).bind fun _ h => .pure h
  case condBr =>
    exact .pass fun _ => .bind term_yields fun _ hcondition => .pass fun _ =>
      .bind labelRef_yields fun _ hthen => .pass fun _ =>
        .bind labelRef_yields fun _ helse => .pure ⟨hcondition, hthen, helse⟩
  case br =>
    exact .pass fun _ => .bind labelRef_yields fun _ h => .pure h
  case switch =>
    have hcase : switchCase.Yields fun c => IsLiteral c.1 ∧ IsName c.2 :=
      .pass fun _ => .bind integer_yields fun _ hliteral => .pass fun _ =>
        .bind labelRef_yields fun _ hlabel => .pass fun _ => .pure ⟨hliteral, hlabel⟩
    exact .pass fun _ => .bind term_yields fun _ hvalue => .pass fun _ =>
      .bind labelRef_yields fun _ hdefault => hcase.many.bind fun _ hcases =>
        .pure ⟨hvalue, hdefault, hcases⟩
  case call =>
    exact .pass fun _ => .bind globalName_yields fun _ hcallee => .pass fun _ =>
      .bind terms_yields fun _ hargs => .pass fun _ => .pure ⟨hcallee, hargs⟩
  case generic =>
    exact .pass fun _ => .bind terms_yields fun _ hoperands => .pure hoperands

theorem statement_yields : statement.Yields (Statement.Fits Body.WellNamed) :=
  .pass fun _ => (Yields.seqLeft valueName_yields _).option.bind fun _ hresult =>
    .bind body_yields fun _ hbody => .pure ⟨hresult, hbody⟩

theorem labelled_yields : labelled.Yields (Section.Fits Body.WellNamed) :=
  .bind labelDef_yields fun _ hlabel => (Yields.many statement_yields).bind fun _ hstatements =>
    .pure ⟨hlabel, hstatements⟩

/-! ## Open instructions -/

theorem term_of_terms (h : terms s = some ([], r)) : term r = none := by
  obtain ⟨found, t, hfound, h⟩ := bind_eq_some h
  simp only [pure_apply, Option.some.injEq, Prod.mk.injEq] at h
  obtain ⟨hnil, rfl⟩ := h
  cases hterm : term s with
  | some x =>
    -- One operand is enough for a list.
    obtain ⟨items, t', hitems⟩ := exists_many (symbol ',' *> term) x.2
    have hlist : sepBy1 term (symbol ',') s = some (x.1 :: items, t') := by
      unfold sepBy1
      rw [bind_of_some (a := x.1) (r := x.2) hterm, bind_of_some hitems]
      rfl
    simp only [Reader.option, hlist, Option.some.injEq, Prod.mk.injEq] at hfound
    rw [← hfound.1] at hnil
    cases hnil
  | none =>
    have hlist : sepBy1 term (symbol ',') s = none := bind_of_none hterm
    simp only [Reader.option, hlist, Option.some.injEq, Prod.mk.injEq] at hfound
    rw [← hfound.2, hterm]

/-- Every alternative but the last reads an instruction that is not open. -/
theorem generic_of_open {b : Body} (h : body s = some (b, r)) (hopen : b.Open) :
    generic s = some (b, r) := by
  have hpure : ∀ b : Body, ¬ b.Open → Yields (pure b) fun b => ¬ b.Open := fun b hb => .pure hb
  have hphi : phi.Yields fun b => ¬ b.Open :=
    .pass fun _ => .pass fun _ => hpure _ (by rintro ⟨_, ⟨⟩⟩)
  have hcondBr : condBr.Yields fun b => ¬ b.Open :=
    .pass fun _ => .pass fun _ => .pass fun _ => .pass fun _ => .pass fun _ => .pass fun _ =>
      hpure _ (by rintro ⟨_, ⟨⟩⟩)
  have hbr : br.Yields fun b => ¬ b.Open :=
    .pass fun _ => .pass fun _ => hpure _ (by rintro ⟨_, ⟨⟩⟩)
  have hswitch : switch.Yields fun b => ¬ b.Open :=
    .pass fun _ => .pass fun _ => .pass fun _ => .pass fun _ => .pass fun _ =>
      hpure _ (by rintro ⟨_, ⟨⟩⟩)
  have hcall : call.Yields fun b => ¬ b.Open :=
    .pass fun _ => .pass fun _ => .pass fun _ => .pass fun _ => .pass fun _ =>
      hpure _ (by rintro ⟨_, ⟨⟩⟩)
  rw [body_apply] at h
  simp only [Option.or_eq_some_iff] at h
  rcases h with h | ⟨-, h | ⟨-, h | ⟨-, h | ⟨-, h | ⟨-, h⟩⟩⟩⟩⟩
  · exact absurd hopen (hphi _ _ _ h)
  · exact absurd hopen (hcondBr _ _ _ h)
  · exact absurd hopen (hbr _ _ _ h)
  · exact absurd hopen (hswitch _ _ _ h)
  · exact absurd hopen (hcall _ _ _ h)
  · exact h

/-- Behind an open instruction there is no operand. -/
theorem term_of_statement {st : Statement} (h : statement s = some (st, r))
    (hopen : st.body.Open) : term r = none := by
  obtain ⟨-, s₁, -, h⟩ := bind_eq_some h
  obtain ⟨result, s₂, -, h⟩ := bind_eq_some h
  obtain ⟨b, s₃, hb, h⟩ := bind_eq_some h
  cases h
  have hgeneric := generic_of_open hb hopen
  obtain ⟨opcode, rfl⟩ := hopen
  obtain ⟨name, s₄, -, h⟩ := bind_eq_some hgeneric
  obtain ⟨operands, s₅, hoperands, h⟩ := bind_eq_some h
  cases h
  exact term_of_terms hoperands

theorem term_of_labelled {sec : Section} (h : labelled s = some (sec, r))
    (hopen : ∃ st ∈ sec.statements.getLast?, st.body.Open) : term r = none := by
  obtain ⟨label, t, -, h⟩ := bind_eq_some h
  obtain ⟨statements, t', hmany, h⟩ := bind_eq_some h
  cases h
  obtain ⟨st, hst, hopen⟩ := hopen
  obtain ⟨s', hread⟩ := (many_steps hmany).last hst
  exact term_of_statement hread hopen

theorem exists_integer {c : Char} (hnext : next? s = some c) (hc : c.isDigit = true) :
    ∃ x, integer s = some x := by
  obtain ⟨t, ht⟩ := List.head?_eq_some_iff.1 hnext
  have hsign : ¬ c = '-' := by
    rintro rfl
    revert hc
    decide
  have hoption : Reader.option (Reader.char '-') (c :: t) = some (none, c :: t) := by
    simp [Reader.option, Reader.char, hsign]
  have hspan : span1 Char.isDigit (c :: t) =
      some (c :: t.takeWhile Char.isDigit, t.dropWhile Char.isDigit) := by
    simp [span1, hc]
  unfold integer token
  rw [ht, bind_of_some hoption, bind_of_some hspan]
  exact ⟨_, rfl⟩

/-- A label that could be taken for an operand is taken for one. -/
theorem not_startsTerm_of_labelDef {label : String} (h : labelDef s = some (label, r))
    (hterm : term s = none) : ¬ StartsTerm label := by
  obtain ⟨t, hs, hname, ht⟩ : ∃ t, skipLayout false s = label.toList ++ t ∧ IsName label ∧
      Stops isIdentChar t := by
    unfold labelDef token at h
    rw [seqLeft_apply] at h
    obtain ⟨x, hx, h⟩ := Option.bind_eq_some_iff.1 h
    obtain ⟨y, -, heq⟩ := Option.map_eq_some_iff.1 h
    cases heq
    have hname := ident_yields _ _ _ hx
    rw [ident, map_apply] at hx
    obtain ⟨⟨w, t⟩, hw, rfl⟩ := Option.map_eq_some_iff.1 hx
    obtain ⟨-, -, hs, ht⟩ := span1_eq_some hw
    exact ⟨t, by rw [hs]; simp, hname, ht⟩
  rw [← skipsLayout_term s, hs, term_of_next? (hname.next?_ne (by decide) t)] at hterm
  intro hstarts
  by_cases hdigit : ∃ c ∈ label.toList.head?, c.isDigit = true
  · obtain ⟨c, hc, hd⟩ := hdigit
    have hnext : next? (label.toList ++ t) = some c := by
      obtain ⟨d, hnext, hhead, -⟩ := hname.next? t
      rw [hnext]
      exact hhead.symm.trans hc
    obtain ⟨x, hx⟩ := exists_integer hnext hd
    rw [plainTerm_apply, valueName_of_next? (hname.next?_ne (by decide) t),
      globalName_of_next? (hname.next?_ne (by decide) t), hx] at hterm
    cases hterm
  · have hdigit : ∀ c ∈ label.toList.head?, c.isDigit = false := by
      intro c hc
      by_contra hd
      exact hdigit ⟨c, hc, by simpa using hd⟩
    rw [plainTerm_name hname ht hdigit] at hterm
    rcases hstarts with ⟨c, hc, hd⟩ | rfl | rfl
    · simp [hdigit c hc] at hd
    · cases hterm
    · cases hterm

/-! ## Functions and texts -/

theorem definition_yields : definition.Yields (Definition.Fits Body.WellNamed) := by
  refine .pass fun _ => .bind globalName_yields fun name hname => .pass fun _ =>
    (Yields.sepBy1 valueName_yields _).option.bind fun params hparams =>
      .pass fun _ => .pass fun _ => ?_
  intro s d r h
  obtain ⟨sections, t, hsections, h⟩ := bind_eq_some h
  obtain ⟨-, t', -, h⟩ := bind_eq_some h
  cases h
  refine ⟨hname, ?_, Yields.many labelled_yields _ _ _ hsections, ?_⟩
  · cases params with
    | none => simp
    | some params => exact hparams params rfl
  · refine (many_steps hsections).isChain.imp ?_
    rintro sec next ⟨s, t, r, hsec, hnext⟩ hopen
    obtain ⟨label, t', hlabel, h⟩ := bind_eq_some hnext
    obtain ⟨statements, t'', -, h⟩ := bind_eq_some h
    cases h
    exact not_startsTerm_of_labelDef hlabel (term_of_labelled hsec hopen)

/-- The trees of a text fit the grammar. -/
theorem parse?_fits {text : String} {definitions : List Definition}
    (h : parse? text = some definitions) : ∀ d ∈ definitions, d.Fits Body.WellNamed := by
  unfold parse? run? at h
  obtain ⟨⟨found, rest⟩, hfound, h⟩ := Option.bind_eq_some_iff.1 h
  have hyields := ((Yields.many definition_yields).seqLeft _) _ _ _ hfound
  cases rest with
  | nil =>
    cases h
    exact hyields
  | cons c rest => cases h

end Source

end FlowFacts
