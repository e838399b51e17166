import FlowFacts.Proofs.ReaderLaws
import FlowFacts.Source.Resolve

/-!
# Layout makes no difference

The layout of a text, its blanks and comments, cuts it into chunks. Readers of tokens pass over
layout and then look into a chunk only, so what a text denotes depends on its chunks and not on
what stands between them: the grammar gives the same tree, or refuses both texts, and so does what
comes after it.

Choices, lookaheads and repetitions decide by where a reader fails. So the argument is about views:
a reader respects a view of texts if from two texts with the same view it reads the same value and
leaves rests with the same view, or fails on both. All combinators keep that.

Main results:

* `Reader.Respects` and its rules.
* `Source.respects_token`: inside a token the view is the rest of the chunk and the chunks behind
  it, between tokens it is the chunks.
* `Source.parse_eq_of_chunks`: texts with the same chunks denote the same.
-/

namespace FlowFacts

/-! ## Readers that respect a view -/

/-- The reader takes at least `least` characters, and looks at a text only through a view of it:
    from texts with the same view it reads the same value, and the rests have the same view. -/
structure Reader.Respects {α κ : Type} (view : List Char → κ) (least : Nat) (p : Reader α) :
    Prop where
  takes : ∀ {s r : List Char} {a : α}, p s = some (a, r) → r.length + least ≤ s.length
  reads : ∀ {s t r : List Char} {a : α}, view s = view t → p s = some (a, r) →
    ∃ r', p t = some (a, r') ∧ view r = view r'

namespace Reader.Respects

variable {α β κ : Type} {view : List Char → κ} {least least' : Nat} {p : Reader α} {q : Reader β}
  {s t r : List Char}

theorem eq_none (hp : p.Respects view least) (hview : view s = view t) (h : p s = none) :
    p t = none := by
  cases ht : p t with
  | none => rfl
  | some x =>
    obtain ⟨r', hr', -⟩ := hp.reads (a := x.1) (r := x.2) hview.symm ht
    rw [h] at hr'
    cases hr'

theorem pure (a : α) : Respects view 0 (pure a : Reader α) where
  takes h := by
    cases h
    exact le_rfl
  reads hview h := by
    cases h
    exact ⟨_, rfl, hview⟩

theorem weaken (hp : p.Respects view least) (hle : least' ≤ least) : p.Respects view least' where
  takes h := (Nat.add_le_add_left hle _).trans (hp.takes h)
  reads := hp.reads

theorem bind_add {f : α → Reader β} (hp : p.Respects view least)
    (hf : ∀ a, (f a).Respects view least') : Respects view (least + least') (p >>= f) where
  takes h := by
    obtain ⟨⟨a, u⟩, ha, hb⟩ := Option.bind_eq_some_iff.1 h
    have hfirst := hp.takes ha
    have hrest := (hf a).takes hb
    omega
  reads hview h := by
    obtain ⟨⟨a, u⟩, ha, hb⟩ := Option.bind_eq_some_iff.1 h
    obtain ⟨u', hu', hview⟩ := hp.reads hview ha
    obtain ⟨r', hr', hview⟩ := (hf a).reads hview hb
    exact ⟨r', (bind_of_some hu').trans hr', hview⟩

/-- A sequence takes at least what its first part takes. -/
theorem bind {f : α → Reader β} (hp : p.Respects view least)
    (hf : ∀ a, (f a).Respects view least') : Respects view least (p >>= f) :=
  (hp.bind_add hf).weaken (Nat.le_add_right least least')

/-- A sequence takes at least what its second part takes. -/
theorem bind_second {f : α → Reader β} (hp : p.Respects view least)
    (hf : ∀ a, (f a).Respects view least') : Respects view least' (p >>= f) :=
  (hp.bind_add hf).weaken (Nat.le_add_left least' least)

theorem map (g : α → β) (hp : p.Respects view least) : Respects view least (g <$> p) where
  takes h := by
    rw [map_apply] at h
    obtain ⟨⟨a, u⟩, ha, heq⟩ := Option.map_eq_some_iff.1 h
    cases heq
    exact hp.takes ha
  reads hview h := by
    rw [map_apply] at h
    obtain ⟨⟨a, u⟩, ha, heq⟩ := Option.map_eq_some_iff.1 h
    cases heq
    obtain ⟨u', hu', hview⟩ := hp.reads hview ha
    exact ⟨u', by rw [map_apply, hu']; rfl, hview⟩

theorem seqRight (hp : p.Respects view least) (hq : q.Respects view least') :
    Respects view least (p *> q) := hp.bind fun _ => hq

theorem seqRight_second (hp : p.Respects view least) (hq : q.Respects view least') :
    Respects view least' (p *> q) := hp.bind_second fun _ => hq

theorem seqLeft (hp : p.Respects view least) (hq : q.Respects view least') :
    Respects view least (p <* q) := hp.bind fun _ => hq.bind fun _ => .pure _

/-- The second choice is made only where the first one fails, and it fails on both texts. -/
theorem orElse {q : Reader α} (hp : p.Respects view least) (hq : q.Respects view least) :
    Respects view least (p <|> q) where
  takes h := by
    rw [orElse_apply, Option.or_eq_some_iff] at h
    rcases h with h | ⟨-, h⟩
    · exact hp.takes h
    · exact hq.takes h
  reads hview h := by
    rw [orElse_apply, Option.or_eq_some_iff] at h
    rcases h with h | ⟨hnone, h⟩
    · obtain ⟨r', hr', hrest⟩ := hp.reads hview h
      exact ⟨r', by rw [orElse_apply, hr', Option.some_or], hrest⟩
    · obtain ⟨r', hr', hrest⟩ := hq.reads hview h
      exact ⟨r', by rw [orElse_apply, hp.eq_none hview hnone, Option.none_or, hr'], hrest⟩

theorem notAhead (hp : p.Respects view least) : Respects view 0 (Reader.notAhead p) where
  takes {s r a} h := by
    unfold Reader.notAhead at h
    split at h
    · cases h
    · cases h
      exact le_rfl
  reads {s t r a} hview h := by
    unfold Reader.notAhead at h
    split at h
    · cases h
    · next hnone =>
      cases h
      exact ⟨t, by rw [Reader.notAhead, hp.eq_none hview hnone], hview⟩

theorem option (hp : p.Respects view least) : Respects view 0 (Reader.option p) where
  takes {s r a} h := by
    unfold Reader.option at h
    split at h
    · next ha =>
      cases h
      have := hp.takes ha
      omega
    · cases h
      exact le_rfl
  reads {s t r a} hview h := by
    unfold Reader.option at h
    split at h
    · next ha =>
      cases h
      obtain ⟨r', hr', hrest⟩ := hp.reads hview ha
      exact ⟨r', by rw [Reader.option, hr'], hrest⟩
    · next hnone =>
      cases h
      exact ⟨t, by rw [Reader.option, hp.eq_none hview hnone], hview⟩

/-! ### Repetitions -/

theorem length_add_le (hp : p.Respects view 1) {items : List α} (h : Steps p items s r) :
    r.length + items.length ≤ s.length := by
  induction h with
  | nil s => exact le_rfl
  | cons ha _ ih =>
    have := hp.takes ha
    rw [List.length_cons]
    omega

/-- Each item takes a character, so a bound that the text does not exceed is not what ends a
    repetition. -/
theorem manyUpTo_end (hp : p.Respects view 1) {items : List α} {bound : Nat}
    (hlength : s.length ≤ bound) (h : manyUpTo p bound s = some (items, r)) : p r = none := by
  induction bound generalizing s items with
  | zero =>
    cases h
    cases hr : p r with
    | none => rfl
    | some x =>
      have := hp.takes (a := x.1) (r := x.2) hr
      omega
  | succ bound ih =>
    rw [manyUpTo] at h
    split at h
    · next hs =>
      cases h
      exact hs
    · next a u hs =>
      obtain ⟨x, hx, heq⟩ := Option.map_eq_some_iff.1 h
      cases heq
      have := hp.takes hs
      exact ih (by omega) hx

theorem exists_steps (hp : p.Respects view least) {items : List α} (hview : view s = view t)
    (h : Steps p items s r) : ∃ r', Steps p items t r' ∧ view r = view r' := by
  induction h generalizing t with
  | nil s => exact ⟨t, .nil t, hview⟩
  | cons ha _ ih =>
    obtain ⟨u', hu', hview⟩ := hp.reads hview ha
    obtain ⟨r', hr', hview⟩ := ih hview
    exact ⟨r', .cons hu' hr', hview⟩

theorem many (hp : p.Respects view 1) : Respects view 0 (Reader.many p) where
  takes h := by
    have := hp.length_add_le (many_steps h)
    omega
  reads hview h := by
    obtain ⟨r', hsteps, hrest⟩ := hp.exists_steps hview (many_steps h)
    have hend := hp.eq_none hrest (hp.manyUpTo_end le_rfl h)
    have hlength := hp.length_add_le hsteps
    exact ⟨r', many_eq hsteps hend (by omega), hrest⟩

theorem sepBy1 (hp : p.Respects view least) (hq : q.Respects view 1) :
    Respects view least (Reader.sepBy1 p q) :=
  hp.bind fun _ => (hq.seqRight hp).many.bind fun _ => .pure _

end Reader.Respects

namespace Source

/-! ## Chunks -/

/-- A text without its comments; the line ends behind them stay. The flag says whether the text
    starts inside a comment. -/
def withoutComments : Bool → List Char → List Char
  | _, [] => []
  | true, c :: rest =>
    if isLineEnd c then c :: withoutComments false rest else withoutComments true rest
  | false, c :: rest =>
    if c = ';' then withoutComments true rest else c :: withoutComments false rest

/-- The pieces between blanks of a text without its comments. -/
def pieces (inside : Bool) (s : List Char) : List (List Char) :=
  ((withoutComments inside s).splitOnP isBlank).filter (· ≠ [])

/-- The chunks of a text: what blanks and comments leave of it, cut where they stood. -/
def chunks (text : String) : List (List Char) := pieces false text.toList

/-- Whether a character belongs to a chunk, outside of comments. -/
def isSolid (c : Char) : Bool := !isBlank c && c ≠ ';'

variable {α : Type} {p : Reader α} {c : Char} {s t r w : List Char} {inside : Bool}

theorem isBlank_of_isLineEnd (h : isLineEnd c = true) : isBlank c = true := by
  simp [isBlank, h]

theorem isSolid_eq_true : isSolid c = true ↔ isBlank c = false ∧ c ≠ ';' := by
  simp [isSolid]

theorem pieces_nil (inside : Bool) : pieces inside [] = [] := by
  cases inside <;> rfl

/-- A blank in front of a text cuts off an empty piece only. -/
theorem filter_splitOnP_blank (hc : isBlank c = true) (s : List Char) :
    ((c :: s).splitOnP isBlank).filter (· ≠ []) = (s.splitOnP isBlank).filter (· ≠ []) := by
  rw [List.splitOnP_cons_eq_if_modifyHead, if_pos hc]
  simp

theorem pieces_blank (hc : isBlank c = true) : pieces false (c :: s) = pieces false s := by
  have hcomment : c ≠ ';' := by
    rintro rfl
    exact absurd hc (by decide)
  rw [pieces, withoutComments, if_neg hcomment, filter_splitOnP_blank hc, pieces]

theorem pieces_semicolon : pieces false (';' :: s) = pieces true s := rfl

theorem pieces_inside : pieces true (c :: s) = pieces (!isLineEnd c) s := by
  rw [pieces, withoutComments]
  split_ifs with hc
  · rw [filter_splitOnP_blank (isBlank_of_isLineEnd hc), hc]
    rfl
  · rw [Bool.not_eq_true] at hc
    rw [hc]
    rfl

/-- Passing over layout loses no chunk. -/
theorem pieces_skipLayout (inside : Bool) (s : List Char) :
    pieces false (skipLayout inside s) = pieces inside s := by
  fun_induction skipLayout inside s with
  | case1 => rw [pieces_nil, pieces_nil]
  | case2 c rest ih => rw [ih, pieces_inside]
  | case3 c rest hc ih => rw [ih, pieces_blank hc]
  | case4 rest hc ih => rw [ih, pieces_semicolon]
  | case5 c rest hc hcomment => rfl

theorem withoutComments_append (hw : ∀ c ∈ w, isSolid c = true) (s : List Char) :
    withoutComments false (w ++ s) = w ++ withoutComments false s := by
  induction w with
  | nil => rfl
  | cons c w ih =>
    rw [List.forall_mem_cons] at hw
    rw [List.cons_append, withoutComments, if_neg (isSolid_eq_true.1 hw.1).2, ih hw.2]
    rfl

/-- Where a comment starts, the text without comments goes on with a line end. -/
theorem withoutComments_inside (s : List Char) :
    withoutComments true s = [] ∨
      ∃ c rest, isBlank c = true ∧ withoutComments true s = c :: rest := by
  induction s with
  | nil => exact .inl rfl
  | cons c s ih =>
    rw [withoutComments]
    split_ifs with hc
    · exact .inr ⟨c, _, isBlank_of_isLineEnd hc, rfl⟩
    · exact ih

/-- Where a chunk stops, the text without comments has a blank or ends. -/
theorem withoutComments_stops (hs : Reader.Stops isSolid s) :
    withoutComments false s = [] ∨
      ∃ c rest, isBlank c = true ∧ withoutComments false s = c :: rest := by
  cases s with
  | nil => exact .inl rfl
  | cons c s =>
    by_cases hcomment : c = ';'
    · subst hcomment
      exact withoutComments_inside s
    · have hc : isBlank c = true := by
        simpa [isSolid, hcomment] using Reader.stops_cons.1 hs
      exact .inr ⟨c, _, hc, by rw [withoutComments, if_neg hcomment]⟩

/-- A run of characters that stops at layout is a chunk. -/
theorem pieces_append (hne : w ≠ []) (hw : ∀ c ∈ w, isSolid c = true)
    (hs : Reader.Stops isSolid s) : pieces false (w ++ s) = w :: pieces false s := by
  have hsolid : ∀ c ∈ w, isBlank c = false := fun c hc => (isSolid_eq_true.1 (hw c hc)).1
  unfold pieces
  rw [withoutComments_append hw]
  rcases withoutComments_stops hs with hnil | ⟨c, rest, hc, hcons⟩
  · rw [hnil, List.append_nil, List.splitOnP_eq_singleton hsolid]
    simp [hne]
  · rw [hcons, List.splitOnP_append_cons_of_forall_mem hsolid c hc, filter_splitOnP_blank hc]
    simp [hne]

/-! ## Inside a chunk -/

/-- The rest of the chunk in front of a text, and the chunks behind it. -/
def front (s : List Char) : List Char × List (List Char) :=
  (s.takeWhile isSolid, pieces false (s.dropWhile isSolid))

theorem pieces_of_front (s : List Char) :
    pieces false s = if (front s).1 = [] then (front s).2 else (front s).1 :: (front s).2 := by
  have hsplit : s.takeWhile isSolid ++ s.dropWhile isSolid = s := List.takeWhile_append_dropWhile
  unfold front
  dsimp only
  split_ifs with hnil
  · rw [hnil, List.nil_append] at hsplit
    rw [hsplit]
  · have hw : ∀ c ∈ s.takeWhile isSolid, isSolid c = true := fun c => List.mem_takeWhile_imp
    rw [← pieces_append hnil hw (Reader.stops_dropWhile isSolid s), hsplit]

theorem pieces_eq_of_front (h : front s = front t) : pieces false s = pieces false t := by
  rw [pieces_of_front, h, ← pieces_of_front]

theorem isSolid_of_skipLayout (h : skipLayout inside s = c :: r) : isSolid c = true := by
  fun_induction skipLayout inside s with
  | case1 => cases h
  | case2 d rest ih => exact ih h
  | case3 d rest hd ih => exact ih h
  | case4 rest hd ih => exact ih h
  | case5 d rest hd hcomment =>
    cases h
    exact isSolid_eq_true.2 ⟨by simpa using hd, hcomment⟩

/-- Behind layout a text ends or a chunk starts, so the chunks tell all. -/
theorem front_skipLayout (s : List Char) :
    front (skipLayout false s) = ((pieces false s).headD [], (pieces false s).tail) := by
  rw [← pieces_skipLayout false s, pieces_of_front (skipLayout false s)]
  cases hs : skipLayout false s with
  | nil => rfl
  | cons c r => simp [front, isSolid_of_skipLayout hs]

theorem front_cons (hc : isSolid c = true) (h : front (c :: s) = front t) :
    ∃ t', t = c :: t' ∧ front s = front t' := by
  cases t with
  | nil => simp [front, hc] at h
  | cons d t =>
    by_cases hd : isSolid d = true
    · simp only [front, List.takeWhile_cons, List.dropWhile_cons, hc, hd, if_true, Prod.mk.injEq,
        List.cons.injEq] at h
      exact ⟨t, by rw [h.1.1], Prod.ext h.1.2 h.2⟩
    · simp [front, hc, hd] at h

/-- A run of characters that does not reach beyond the chunk is the same on both sides. -/
theorem front_span {good : Char → Bool} (hgood : ∀ c, good c = true → isSolid c = true)
    (h : front s = front t) :
    s.takeWhile good = t.takeWhile good ∧ front (s.dropWhile good) = front (t.dropWhile good) := by
  induction s generalizing t with
  | nil =>
    cases t with
    | nil => exact ⟨rfl, rfl⟩
    | cons d t =>
      by_cases hd : good d = true
      · obtain ⟨s', hs', -⟩ := front_cons (hgood d hd) h.symm
        cases hs'
      · simp [hd, h]
  | cons c s ih =>
    by_cases hc : good c = true
    · obtain ⟨t', rfl, hrest⟩ := front_cons (hgood c hc) h
      simpa [hc] using ih hrest
    · cases t with
      | nil => simp [hc, h]
      | cons d t =>
        by_cases hd : good d = true
        · obtain ⟨s', hs', -⟩ := front_cons (hgood d hd) h.symm
          cases hs'
          exact absurd hd hc
        · simp [hc, hd, h]

/-! ## Tokens -/

theorem respects_char (hc : isSolid c = true) : (Reader.char c).Respects front 1 where
  takes {s r a} h := by
    cases s with
    | nil => cases h
    | cons d s =>
      rw [Reader.char] at h
      split_ifs at h
      cases h
      exact le_rfl
  reads {s t r a} hview h := by
    cases s with
    | nil => cases h
    | cons d s =>
      rw [Reader.char] at h
      split_ifs at h with hd
      cases h
      subst hd
      obtain ⟨t', rfl, hrest⟩ := front_cons hc hview
      exact ⟨t', by rw [Reader.char, if_pos rfl], hrest⟩

theorem front_dropWord (hw : ∀ c ∈ w, isSolid c = true) (hview : front s = front t)
    (h : Reader.dropWord w s = some r) :
    ∃ r', Reader.dropWord w t = some r' ∧ front r = front r' := by
  obtain rfl := Reader.eq_append_of_dropWord h
  clear h
  induction w generalizing t with
  | nil => exact ⟨t, rfl, hview⟩
  | cons c w ih =>
    rw [List.forall_mem_cons] at hw
    obtain ⟨t', rfl, htail⟩ := front_cons hw.1 hview
    obtain ⟨r', hr', hrest⟩ := ih hw.2 htail
    exact ⟨r', by rw [Reader.dropWord, if_pos rfl, hr'], hrest⟩

theorem respects_word {w : String} (hw : w.toList.all isSolid = true) :
    (Reader.word w).Respects front w.toList.length where
  takes h := by
    obtain ⟨rest, hrest, heq⟩ := Option.map_eq_some_iff.1 h
    cases heq
    rw [Reader.eq_append_of_dropWord hrest, List.length_append, Nat.add_comm]
  reads hview h := by
    obtain ⟨rest, hrest, heq⟩ := Option.map_eq_some_iff.1 h
    cases heq
    obtain ⟨r', hr', hview⟩ := front_dropWord (List.all_eq_true.1 hw) hview hrest
    exact ⟨r', by rw [Reader.word, hr']; rfl, hview⟩

theorem respects_span1 {good : Char → Bool} (hgood : ∀ c, good c = true → isSolid c = true) :
    (Reader.span1 good).Respects front 1 where
  takes {s r w} h := by
    obtain ⟨hne, -, rfl, -⟩ := Reader.span1_eq_some h
    have := List.length_pos_iff.2 hne
    rw [List.length_append]
    omega
  reads {s t r w} hview h := by
    obtain ⟨hne, hw, rfl, hstops⟩ := Reader.span1_eq_some h
    obtain ⟨htake, hdrop⟩ := front_span hgood hview
    rw [Reader.takeWhile_append hw hstops] at htake
    rw [Reader.dropWhile_append hw hstops] at hdrop
    refine ⟨t.dropWhile good, ?_, hdrop⟩
    unfold Reader.span1
    rw [← htake]
    cases w with
    | nil => exact absurd rfl hne
    | cons c w => rfl

theorem length_skipLayout_le (inside : Bool) (s : List Char) :
    (skipLayout inside s).length ≤ s.length := by
  fun_induction skipLayout inside s with
  | case1 => exact le_rfl
  | case2 c rest ih => exact ih.trans (Nat.le_succ _)
  | case3 c rest hc ih => exact ih.trans (Nat.le_succ _)
  | case4 rest hc ih => exact ih.trans (Nat.le_succ _)
  | case5 c rest hc hcomment => exact le_rfl

/-- Between tokens only the chunks count, inside a token the rest of the chunk as well. -/
theorem respects_token {least : Nat} (hp : p.Respects front least) :
    (token p).Respects (pieces false) least where
  takes {s r a} h := (hp.takes h).trans (length_skipLayout_le false s)
  reads {s t r a} hview h := by
    have hfront : front (skipLayout false s) = front (skipLayout false t) := by
      rw [front_skipLayout, front_skipLayout, hview]
    obtain ⟨r', hr', hrest⟩ := hp.reads hfront h
    exact ⟨r', hr', pieces_eq_of_front hrest⟩

theorem atEnd_eq_some {u : Unit} (h : token Reader.atEnd s = some (u, r)) :
    skipLayout false s = [] ∧ r = [] := by
  unfold token at h
  cases hs : skipLayout false s with
  | nil =>
    rw [hs] at h
    cases h
    exact ⟨rfl, rfl⟩
  | cons c u =>
    rw [hs] at h
    cases h

theorem respects_atEnd : (token Reader.atEnd).Respects (pieces false) 0 where
  takes {s r a} h := by
    rw [(atEnd_eq_some h).2]
    exact Nat.zero_le _
  reads {s t r a} hview h := by
    obtain ⟨hs, rfl⟩ := atEnd_eq_some h
    have hnil : pieces false t = [] := by
      rw [← hview, ← pieces_skipLayout, hs, pieces_nil]
    have hfront := front_skipLayout t
    unfold token
    cases ht : skipLayout false t with
    | nil => exact ⟨[], rfl, rfl⟩
    | cons c u =>
      rw [ht, hnil] at hfront
      simp [front, isSolid_of_skipLayout ht] at hfront

/-- A class of characters without blanks and semicolons lies inside chunks. -/
theorem isSolid_of {good : Char → Bool}
    (h : [' ', '\t', '\n', '\r', ';'].all (fun c => !good c) = true) (c : Char)
    (hc : good c = true) : isSolid c = true := by
  by_contra hsolid
  have hlayout : c ∈ [' ', '\t', '\n', '\r', ';'] := by
    simp only [isSolid_eq_true, isBlank, isLineEnd] at hsolid
    simp at hsolid ⊢
    tauto
  have hbad := List.all_eq_true.1 h c hlayout
  rw [hc] at hbad
  cases hbad

theorem isSolid_of_isIdentChar (c : Char) (hc : isIdentChar c = true) : isSolid c = true :=
  isSolid_of (by decide) c hc

theorem respects_symbol (hc : isSolid c = true) : (symbol c).Respects (pieces false) 1 :=
  respects_token (respects_char hc)

theorem respects_keyword {w : String} (hw : w.toList.all isSolid = true) :
    (keyword w).Respects (pieces false) w.toList.length :=
  respects_token (respects_word hw)

theorem respects_ident : ident.Respects front 1 := .map _ (respects_span1 isSolid_of_isIdentChar)

theorem respects_valueName : valueName.Respects (pieces false) 1 :=
  respects_token (.seqRight (respects_char (by decide)) respects_ident)

theorem respects_globalName : globalName.Respects (pieces false) 1 :=
  respects_token (.seqRight (respects_char (by decide)) respects_ident)

theorem respects_labelDef : labelDef.Respects (pieces false) 1 :=
  respects_token (.seqLeft respects_ident (respects_char (by decide)))

theorem respects_integer : integer.Respects (pieces false) 1 :=
  respects_token <| .bind_second (.option (respects_char (by decide))) fun _ =>
    .bind (respects_span1 (isSolid_of (by decide))) fun _ => .pure _

/-- The character behind a whole word may be layout in one text and missing in the other one, which
    is no part of a name either way. -/
theorem respects_wholeWord {w : String} (hw : w.toList.all isSolid = true) :
    (wholeWord w).Respects (pieces false) w.toList.length :=
  respects_token (.seqLeft (respects_word hw) (.notAhead (respects_span1 isSolid_of_isIdentChar)))

theorem respects_opcode : opcode.Respects (pieces false) 1 := by
  refine respects_token ⟨fun {s r a} h => ?_, fun {s t r a} hview h => ?_⟩
  · cases s with
    | nil => cases h
    | cons c s =>
      dsimp only at h
      split_ifs at h
      cases h
      exact Nat.succ_le_succ (List.length_dropWhile_le _ s)
  · cases s with
    | nil => cases h
    | cons c s =>
      dsimp only at h
      split_ifs at h with hc
      cases h
      obtain ⟨t', rfl, htail⟩ := front_cons (isSolid_of (by decide) c hc) hview
      have hletters : ∀ c : Char, c.isAlphanum = true → isSolid c = true := isSolid_of (by decide)
      obtain ⟨htake, hdrop⟩ := front_span hletters htail
      exact ⟨_, by simp only [hc, if_true, htake], hdrop⟩

/-! ## The grammar -/

theorem respects_term : term.Respects (pieces false) 1 := by
  refine .seqRight_second
    (.notAhead (.seqRight respects_valueName (respects_symbol (by decide)))) ?_
  refine .orElse (.map _ respects_valueName) (.orElse (.map _ respects_globalName)
    (.orElse (.map _ respects_integer) (.orElse ?_ ?_)))
  · exact .weaken (.seqRight (respects_wholeWord (by decide)) (.pure _)) (by decide)
  · exact .weaken (.seqRight (respects_wholeWord (by decide)) (.pure _)) (by decide)

theorem respects_comma : (symbol ',').Respects (pieces false) 1 := respects_symbol (by decide)

theorem respects_terms : terms.Respects (pieces false) 0 :=
  .bind (.option (.sepBy1 respects_term respects_comma)) fun _ => .pure _

theorem respects_labelRef : labelRef.Respects (pieces false) 1 :=
  .seqRight_second (respects_keyword (by decide)) respects_valueName

theorem respects_incoming : incoming.Respects (pieces false) 1 :=
  .bind (respects_symbol (by decide)) fun _ => .bind respects_term fun _ =>
    .bind respects_comma fun _ => .bind respects_valueName fun _ =>
      .bind (respects_symbol (by decide)) fun _ => .pure _

theorem respects_switchCase : switchCase.Respects (pieces false) 1 :=
  .bind (respects_symbol (by decide)) fun _ => .bind respects_integer fun _ =>
    .bind respects_comma fun _ => .bind respects_labelRef fun _ =>
      .bind (respects_symbol (by decide)) fun _ => .pure _

theorem respects_body : body.Respects (pieces false) 1 := by
  refine .orElse ?phi (.orElse ?condBr (.orElse ?br (.orElse ?switch (.orElse ?call ?generic))))
  case phi =>
    exact .bind_second (respects_keyword (by decide)) fun _ =>
      .bind (.sepBy1 respects_incoming respects_comma) fun _ => .pure _
  case condBr =>
    exact .bind_second (respects_keyword (by decide)) fun _ => .bind respects_term fun _ =>
      .bind respects_comma fun _ => .bind respects_labelRef fun _ => .bind respects_comma fun _ =>
        .bind respects_labelRef fun _ => .pure _
  case br =>
    exact .bind_second (respects_keyword (by decide)) fun _ =>
      .bind respects_labelRef fun _ => .pure _
  case switch =>
    exact .bind_second (respects_keyword (by decide)) fun _ => .bind respects_term fun _ =>
      .bind respects_comma fun _ => .bind respects_labelRef fun _ =>
        .bind (.many respects_switchCase) fun _ => .pure _
  case call =>
    exact .bind_second (respects_keyword (by decide)) fun _ => .bind respects_globalName fun _ =>
      .bind (respects_symbol (by decide)) fun _ => .bind respects_terms fun _ =>
        .bind (respects_symbol (by decide)) fun _ => .pure _
  case generic =>
    exact .bind respects_opcode fun _ => .bind respects_terms fun _ => .pure _

theorem respects_statement : statement.Respects (pieces false) 1 :=
  .bind_second (.notAhead respects_labelDef) fun _ =>
    .bind_second (.option (.seqLeft respects_valueName (respects_symbol (by decide)))) fun _ =>
      .bind respects_body fun _ => .pure _

theorem respects_labelled : labelled.Respects (pieces false) 1 :=
  .bind respects_labelDef fun _ => .bind (.many respects_statement) fun _ => .pure _

theorem respects_definition : definition.Respects (pieces false) 1 :=
  .bind_second (respects_keyword (by decide)) fun _ => .bind respects_globalName fun _ =>
    .bind (respects_symbol (by decide)) fun _ =>
      .bind (.option (.sepBy1 respects_valueName respects_comma)) fun _ =>
        .bind (respects_symbol (by decide)) fun _ => .bind (respects_symbol (by decide)) fun _ =>
          .bind (.many respects_labelled) fun _ => .bind (respects_symbol (by decide)) fun _ =>
            .pure _

/-! ## Texts -/

theorem parse?_of_chunks {text text' : String} {ds : List Definition}
    (hchunks : chunks text = chunks text') (h : parse? text = some ds) :
    parse? text' = some ds := by
  have hwhole := Reader.Respects.seqLeft (.many respects_definition) respects_atEnd
  unfold parse? Reader.run? at h ⊢
  obtain ⟨⟨found, rest⟩, hfound, h⟩ := Option.bind_eq_some_iff.1 h
  obtain ⟨rest', hfound', -⟩ := hwhole.reads hchunks hfound
  obtain rfl : rest' = [] := by
    rw [Reader.seqLeft_apply] at hfound'
    obtain ⟨x, -, hend⟩ := Option.bind_eq_some_iff.1 hfound'
    obtain ⟨y, hy, heq⟩ := Option.map_eq_some_iff.1 hend
    cases heq
    exact (atEnd_eq_some hy).2
  rw [hfound']
  cases rest with
  | nil => exact h
  | cons c rest => cases h

/-- Texts with the same chunks denote the same: both are refused, or both have the same tree, rule
    by rule, and then they give the same module or the same error. -/
theorem parse_eq_of_chunks {text text' : String} (h : chunks text = chunks text') :
    parse? text = parse? text' ∧
      (parse? text).map rootNode = (parse? text').map rootNode ∧
      ∀ name, Module.parse name text = Module.parse name text' := by
  have hparse : parse? text = parse? text' :=
    Option.ext fun ds => ⟨parse?_of_chunks h, parse?_of_chunks h.symm⟩
  refine ⟨hparse, by rw [hparse], fun name => ?_⟩
  unfold Module.parse
  rw [hparse]

/-- An instruction without operands in front of the result of the next one, on one line. -/
def closeText : String := "define @f() \x7b a: alloca %y = load %y ret \x7d"

/-- The same chunks, with comments that would be a definition, a label and operands. -/
def scatteredText : String :=
  ";define\ndefine\t@f()\r\n\x7b;\r a:;b:\n alloca;%x\n%y\n=;null\nload  %y\nret \x7d;"

/-- Neither the comments nor the line ends change what the next result cuts off. -/
theorem parse_eq_of_chunks_scattered :
    chunks closeText = chunks scatteredText ∧
      parse? closeText = some [⟨"f", [], [⟨"a", [⟨none, .generic "alloca" []⟩,
        ⟨some "y", .generic "load" [.value "y"]⟩, ⟨none, .generic "ret" []⟩]⟩]⟩] ∧
      parse? closeText = parse? scatteredText ∧
      Module.parse "m" closeText = Module.parse "m" scatteredText := by
  have hchunks : chunks closeText = chunks scatteredText := by decide +kernel
  obtain ⟨hparse, -, hmodule⟩ := parse_eq_of_chunks hchunks
  exact ⟨hchunks, by decide +kernel, hparse, hmodule "m"⟩

end Source

end FlowFacts
