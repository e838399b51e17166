import FlowFacts.Program.Codec
import FlowFacts.Proofs.JsonReadBack
import Mathlib.Data.List.Nodup

/-!
# Decoding encoded programs

A value has a form in JSON and a decoder that takes the form apart. `Decodes` says that the decoder
gives the value back. It holds of numbers and strings, it carries over to lists, records and ordered
maps, and so it holds of programs level by level. Nothing is asked of a program: the keys of a map
need not agree with the names and numbers inside, only no two of them are equal.

Main results:

* `JsonText.record?_ofJson`: a record is found in its object, whatever the fields hold.
* `OrderedMap.decodes`: a map keeps the order of its entries.
* `Module.decode_encode`: every module is decoded from its text.
-/

namespace FlowFacts

/-- What is decoded from the JSON form of a value is the value. -/
def Decodes {α : Type} (ofJson? : JsonText → Option α) (toJson : α → Json) : Prop :=
  ∀ a, ofJson? (.ofJson (toJson a)) = some a

namespace JsonText

variable {α : Type} {f : JsonText → Option α} {g : α → Json}

/-! ## Numbers, strings and lists -/

/-- Integers of 64 bits, signed or unsigned, are exact. -/
theorem int?_int {n : Int} (hlow : -(UInt64.size / 2) ≤ n) (hhigh : n < UInt64.size) :
    (ofJson (.int n)).int? = some n := by
  rw [ofJson, int?, Numeral.int?]
  simp only [Numeral.ofInt, Numeral.digitsValue_toDigits, List.isEmpty_nil, Bool.not_true,
    Option.isSome_none, Bool.or_self, Bool.false_eq_true, if_false, decide_eq_true_eq]
  by_cases hn : n < 0
  · rw [if_pos hn, if_pos (by omega), Int.ofNat_natAbs_of_nonpos (by omega), Int.neg_neg]
  · rw [if_neg hn, if_pos (by omega), Int.natAbs_of_nonneg (by omega)]

theorem natBelow?_nat {limit n : Nat} (hlimit : limit ≤ UInt64.size) (h : n < limit) :
    (ofJson (.nat n)).natBelow? limit = some n := by
  have hint : (ofJson (.nat n)).int? = some (n : Int) := int?_int (by omega) (by omega)
  rw [natBelow?, hint, Option.bind_eq_bind, Option.bind_some, if_pos ⟨by omega, by omega⟩,
    Int.toNat_natCast]

theorem decodes_word32 : Decodes word32? fun w => .nat w.toNat := by
  intro w
  rw [word32?, natBelow?_nat (by decide) w.toNat_lt, Option.map_some, UInt32.ofNat_toNat]

theorem decodes_signed : Decodes signed? fun v => .int v.toInt := by
  intro v
  have hlow := v.minValue_le_toInt
  have hhigh := v.toInt_le
  have hmin : Int64.minValue.toInt = -(UInt64.size / 2) := by decide
  have hmax : Int64.maxValue.toInt < UInt64.size := by decide
  have hint : (ofJson (.int v.toInt)).int? = some v.toInt := int?_int (by omega) (by omega)
  rw [signed?, hint]
  exact (if_pos ⟨hlow, hhigh⟩).trans (congrArg some v.ofInt_toInt)

theorem decodes_str : Decodes str? .str := Quoted.text?_ofText

theorem mapM_map_eq_some {α β γ : Type} {f : β → Option γ} {g : α → β} {h : α → γ} {xs : List α}
    (hfg : ∀ a ∈ xs, f (g a) = some (h a)) : (xs.map g).mapM f = some (xs.map h) := by
  induction xs with
  | nil => rfl
  | cons x xs ih =>
    rw [List.forall_mem_cons] at hfg
    rw [List.map_cons, List.mapM_cons, hfg.1, ih hfg.2]
    rfl

/-- A list is decoded if its items are. -/
theorem list?_ofJson {xs : List α} (h : ∀ a ∈ xs, f (ofJson (g a)) = some a) :
    (ofJson (.list g xs)).list? f = some xs := by
  have hitems : ofItems (xs.map g) = xs.map fun a => ofJson (g a) := by
    rw [ofItems_eq, List.map_map]
    rfl
  show (ofItems (xs.map g)).mapM f = some xs
  rw [hitems, mapM_map_eq_some h, List.map_id']

theorem decodes_list (h : Decodes f g) : Decodes (list? f) (Json.list g) :=
  fun _ => list?_ofJson fun a _ => h a

theorem decodes_nullable_str : Decodes (nullable? str?) (Json.option .str) := by
  intro a
  cases a with
  | none => rfl
  | some s => exact congrArg (Option.map some) (decodes_str s)

/-! ## Records and choices -/

theorem fields?_ofJson (fields : List (String × Json)) :
    (ofJson (.obj fields)).fields? = some (fields.map fun field => (field.1, ofJson field.2)) := by
  rw [ofJson, ofFields_eq, fields?]
  exact mapM_map_eq_some fun field _ => by rw [Quoted.text?_ofText]; rfl

theorem fieldNamed?_of_mem {fields : List (String × JsonText)}
    (hnodup : (fields.map Prod.fst).Nodup) {field : String × JsonText} (h : field ∈ fields) :
    fieldNamed? fields field.1 = some field.2 := by
  induction fields with
  | nil => cases h
  | cons first fields ih =>
    rw [List.map_cons, List.nodup_cons] at hnodup
    rcases List.mem_cons.1 h with rfl | hmem
    · simp [fieldNamed?]
    · have hne : first.1 ≠ field.1 := by
        intro heq
        exact hnodup.1 (heq ▸ List.mem_map_of_mem hmem)
      have hrest := ih hnodup.2 hmem
      unfold fieldNamed? at hrest ⊢
      rw [List.find?_cons_of_neg (by simpa using hne), hrest]

theorem countP_named_le {fields : List (String × JsonText)}
    (hnodup : (fields.map Prod.fst).Nodup) (name : String) :
    fields.countP (fun field => field.1 = name) ≤ 1 := by
  have hcount := List.nodup_iff_count_le_one.1 hnodup name
  rw [List.count, List.countP_map] at hcount
  exact hcount

/-- The fields of an object that was written as a record are found, in whatever order they are asked
    for. -/
theorem record?_ofJson_fields {fields : List (String × Json)}
    (hnodup : (fields.map Prod.fst).Nodup) (names : List String) :
    (ofJson (.obj fields)).record? names =
      some (names.map (fieldNamed? (fields.map fun field => (field.1, ofJson field.2)))) := by
  have hread := fields?_ofJson fields
  have hread_nodup : ((fields.map fun field => (field.1, ofJson field.2)).map Prod.fst).Nodup := by
    rw [List.map_map]
    exact hnodup
  rw [ofJson] at hread ⊢
  rw [record?, hread, Option.bind_eq_bind, Option.bind_some, if_pos]
  · exact List.all_eq_true.2 fun name _ => decide_eq_true (countP_named_le hread_nodup name)
  · intro xs h
    cases h

/-- An object that was written as a record has exactly its fields. -/
theorem record?_ofJson {fields : List (String × Json)} {names : List String}
    (hnames : fields.map Prod.fst = names) (hnodup : names.Nodup) :
    (ofJson (.obj fields)).record? names =
      some (fields.map fun field => some (ofJson field.2)) := by
  have hread_nodup : ((fields.map fun field => (field.1, ofJson field.2)).map Prod.fst).Nodup := by
    rw [List.map_map]
    exact hnames ▸ hnodup
  rw [record?_ofJson_fields (hnames ▸ hnodup), ← hnames, List.map_map]
  refine congrArg some (List.map_congr_left fun field hfield => ?_)
  exact fieldNamed?_of_mem hread_nodup
    (List.mem_map_of_mem (f := fun field => (field.1, ofJson field.2)) hfield)

@[simp]
theorem choice?_str (name : String) : (ofJson (.str name)).choice? = some (name, none) := by
  rw [ofJson, choice?, Quoted.text?_ofText]
  rfl

@[simp]
theorem choice?_obj (name : String) (payload : Json) :
    (ofJson (.obj [(name, payload)])).choice? = some (name, some (ofJson payload)) := by
  rw [ofJson, ofFields, ofFields, choice?, Quoted.text?_ofText]
  rfl

theorem named?_str {name : String} {f : String → Option α} :
    (ofJson (.str name)).named? f = f name := by
  rw [named?, choice?_str]

end JsonText

open JsonText

/-! ## Instructions and blocks -/

theorem InstId.decodes : Decodes ofJson? toJson := fun id => by
  show (word32? (.ofJson (.nat id.number.toNat))).map mk = some id
  rw [decodes_word32 id.number, Option.map_some]

theorem BlockId.decodes : Decodes ofJson? toJson := fun id => by
  show (word32? (.ofJson (.nat id.number.toNat))).map mk = some id
  rw [decodes_word32 id.number, Option.map_some]

theorem Opcode.decodes : Decodes ofJson? toJson := fun op => by
  rw [toJson, ofJson?, named?_str, ofName?_name]

theorem Operand.decodes : Decodes ofJson? toJson := by
  intro operand
  cases operand with
  | inst id =>
    rw [toJson, ofJson?, choice?_obj]
    simp [InstId.decodes id]
  | arg position =>
    rw [toJson, ofJson?, choice?_obj]
    simp [decodes_word32 position]
  | const value =>
    rw [toJson, ofJson?, choice?_obj]
    simp [decodes_signed value]
  | global name =>
    rw [toJson, ofJson?, choice?_obj]
    simp [decodes_str name]
  | null =>
    rw [toJson, ofJson?, choice?_str]
    rfl
  | undefined =>
    rw [toJson, ofJson?, choice?_str]
    rfl

theorem Instruction.decodes : Decodes ofJson? toJson := by
  intro inst
  rw [toJson, ofJson?, record?_ofJson (by rfl) (by decide)]
  simp [InstId.decodes inst.id, decodes_nullable_str inst.name, Opcode.decodes inst.opcode,
    decodes_list Operand.decodes inst.operands, decodes_list BlockId.decodes inst.incoming,
    decodes_list BlockId.decodes inst.targets, BlockId.decodes inst.block]

theorem Block.decodes : Decodes ofJson? toJson := by
  intro block
  rw [toJson, ofJson?, record?_ofJson (by rfl) (by decide)]
  simp [BlockId.decodes block.id, decodes_str block.label,
    decodes_list InstId.decodes block.instructions, decodes_list BlockId.decodes block.predecessors,
    decodes_list BlockId.decodes block.successors]

/-! ## Functions and modules -/

/-- A map is decoded with its order, if its keys and its values are decoded. -/
theorem OrderedMap.decodes {κ α : Type} [DecidableEq κ] {key : κ → String}
    {key? : Quoted → Option κ} {f : JsonText → Option α} {g : α → Json}
    (hkey : ∀ k, key? (.ofText (key k)) = some k) (h : Decodes f g) :
    Decodes (OrderedMap.ofJson? key? f) (OrderedMap.toJson key g) := by
  intro m
  have hfields : ofFields (m.entries.map fun e => (key e.1, g e.2)) =
      m.entries.map fun e => (.ofText (key e.1), .ofJson (g e.2)) := by
    rw [ofFields_eq, List.map_map]
    rfl
  rw [toJson, JsonText.ofJson, hfields, ofJson?, mapM_map_eq_some (h := id), List.map_id]
  · exact congrArg some m.ofList_entries
  · intro e
    simp [hkey, h e.2]

theorem Quoted.escape_of_isDigit {c : Char} (h : c.isDigit = true) : escape c = [c] := by
  have hne {d : Char} (hd : d.isDigit = false) : c ≠ d := by
    rintro rfl
    rw [h] at hd
    cases hd
  have hcontrol : ¬c.toNat < 0x20 := by
    have hlow : 48 ≤ c.toNat := by
      simp [Char.isDigit] at h
      exact h.1
    omega
  rw [escape, if_neg (hne rfl), if_neg (hne rfl), if_neg (hne rfl), if_neg (hne rfl),
    if_neg (hne rfl), if_neg (hne rfl), if_neg (hne rfl), if_neg hcontrol]

/-- Digits are not escaped. -/
theorem Quoted.spelling_ofText {text : String} (h : ∀ c ∈ text.toList, c.isDigit = true) :
    (ofText text).spelling = text.toList := by
  have hflat : ∀ cs : List Char, (∀ c ∈ cs, c.isDigit = true) → cs.flatMap escape = cs := by
    intro cs hcs
    induction cs with
    | nil => rfl
    | cons c cs ih =>
      rw [List.forall_mem_cons] at hcs
      rw [List.flatMap_cons, escape_of_isDigit hcs.1, ih hcs.2]
      rfl
  exact hflat text.toList h

/-- The number of a block is read back from the name of its field. -/
theorem BlockId.ofKey?_key (id : BlockId) : ofKey? (.ofText id.key) = some id := by
  have hdigits : id.key.toList = Nat.toDigits 10 id.toNat := by
    rw [key, Nat.toString_eq_repr, Nat.toList_repr]
  have hspelling : (Quoted.ofText id.key).spelling = Nat.toDigits 10 id.toNat := by
    rw [Quoted.spelling_ofText (hdigits ▸ fun _ => isDigit_toDigits), hdigits]
  have hid : ofNat id.toNat = id := by
    rw [ofNat, toNat, UInt32.ofNat_toNat]
  rw [ofKey?, hspelling]
  by_cases hzero : id.toNat = 0
  · rw [hzero, Nat.toDigits_zero]
    show some (ofNat 0) = some id
    rw [← hzero, hid]
  · have hhead := head?_toDigits_ne hzero
    have hvalue := Nat.ofDigitChars_ten_toDigits (n := id.toNat)
    have hall : (Nat.toDigits 10 id.toNat).all Char.isDigit = true :=
      List.all_eq_true.2 fun _ => isDigit_toDigits
    have hlt : id.toNat < UInt32.size := id.number.toNat_lt
    -- The first digit is not a zero, so the digits are taken for a number.
    obtain ⟨c, cs, heq⟩ : ∃ c cs, Nat.toDigits 10 id.toNat = c :: cs :=
      List.exists_cons_of_ne_nil Nat.toDigits_ne_nil
    rw [heq] at hhead hvalue hall ⊢
    have hc : c ≠ '0' := by simpa using hhead
    simpa [hc, hvalue, hlt, hid] using hall

theorem Function.decodes : Decodes ofJson? toJson := by
  intro f
  rw [toJson, ofJson?, record?_ofJson (by rfl) (by decide)]
  simp [decodes_str f.name, decodes_list decodes_str f.params,
    OrderedMap.decodes BlockId.ofKey?_key Block.decodes f.blocks,
    decodes_list Instruction.decodes f.insts.toList]

theorem Module.decodes : Decodes ofJson? toJson := by
  intro m
  rw [toJson, ofJson?, record?_ofJson (by rfl) (by decide)]
  have hfunctions : OrderedMap.ofJson? Quoted.text? Function.ofJson?
      (.ofJson (m.functions.toJson id Function.toJson)) = some m.functions :=
    OrderedMap.decodes Quoted.text?_ofText Function.decodes m.functions
  simp [decodes_str m.name, hfunctions]

/-- Decoding the JSON text of a module gives the module back. -/
theorem Module.decode_encode (m : Module) : decode? m.encode = some m := by
  rw [decode?, encode, parse?_compact, Option.bind_some, Module.decodes]

example : (Module.fresh "a\n").encode =
    "\x7b\"name\":\"a\\n\",\"functions\":\x7b\x7d\x7d" := by
  decide +kernel

end FlowFacts
