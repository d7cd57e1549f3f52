import Stylesheet.Proofs.Written.Number
import Stylesheet.Proofs.Written.Shape

/-!
# What is lost when a value is written

Decoding puts U+FFFD in the place of every null character, and so does writing: the text of a value
does not tell the two apart (`Value.toText_decoded`). A value that keeps text as it stood in the
source, as a malformed address or a hash that spells no color does, can hold a null character all the
same. What its text says is then the decoded value, which has the same shape and holds no null
character; it is the value itself only where that holds none (`Value.decoded_eq_self_iff`).
-/

namespace Stylesheet

/-! ## Characters and texts -/

/-- A character that decoding neither changes nor puts anywhere. -/
def isCommon (c : Char) : Bool := c != nul && c != replacement

theorem unNul_eq_iff {c d : Char} (h : isCommon d = true) : unNul c = d ↔ c = d := by
  simp only [isCommon, Bool.and_eq_true, bne_iff_ne] at h
  by_cases hc : c = nul
  · have hu : unNul c = replacement := by rw [hc]; rfl
    rw [hu, hc]
    exact ⟨fun e => absurd e.symm h.2, fun e => absurd e.symm h.1⟩
  · rw [unNul_of_ne hc]

theorem unNul_ne_nul (c : Char) : unNul c ≠ nul := by
  by_cases hc : c = nul
  · rw [hc]
    decide
  · rwa [unNul_of_ne hc]

theorem isDigit_unNul (c : Char) : (unNul c).isDigit = c.isDigit := by
  by_cases hc : c = nul
  · rw [hc]
    rfl
  · rw [unNul_of_ne hc]

theorem unNul_of_isDigit {c : Char} (h : c.isDigit = true) : unNul c = c :=
  unNul_of_ne fun e => by
    rw [e] at h
    contradiction

theorem nameChar_unNul (c : Char) : nameChar (unNul c) = nameChar c := by
  by_cases hc : c = nul
  · rw [hc]
    decide
  · rw [unNul_of_ne hc]

theorem stringChar_unNul (c : Char) : stringChar (unNul c) = stringChar c := by
  by_cases hc : c = nul
  · rw [hc]
    decide
  · rw [unNul_of_ne hc]

theorem writeName_unNul (cs : List Char) : writeName (cs.map unNul) = writeName cs := by
  rw [writeName, writeName, List.flatMap_map]
  exact congrArg (List.flatMap · cs) (funext nameChar_unNul)

theorem writeNameStart_unNul (cs : List Char) :
    writeNameStart (cs.map unNul) = writeNameStart cs := by
  cases cs with
  | nil => rfl
  | cons c cs =>
    rw [List.map_cons, writeNameStart, writeNameStart, isDigit_unNul, ← List.map_cons,
      writeName_unNul, writeName_unNul]
    split
    · rename_i h
      rw [unNul_of_isDigit h]
    · rfl

/-- A name that begins with no dash is written as what begins it. -/
theorem writeIdent_cons {c : Char} (h : c ≠ '-') (cs : List Char) :
    writeIdent (c :: cs) = writeNameStart (c :: cs) := by
  simp [writeIdent, h]

theorem writeIdent_dash {c : Char} (h : c ≠ '-') (cs : List Char) :
    writeIdent ('-' :: c :: cs) = '-' :: writeNameStart (c :: cs) := by
  simp [writeIdent, h]

theorem writeIdent_unNul (cs : List Char) : writeIdent (cs.map unNul) = writeIdent cs := by
  have hdash {c : Char} (h : c ≠ '-') : unNul c ≠ '-' := fun e =>
    h ((unNul_eq_iff (by decide)).1 e)
  cases cs with
  | nil => rfl
  | cons c cs =>
    by_cases hc : c = '-'
    · cases cs with
      | nil =>
        rw [hc]
        rfl
      | cons d cs =>
        by_cases hd : d = '-'
        · rw [hc, hd]
          exact congrArg (fun more => '-' :: '-' :: more) (writeName_unNul cs)
        · rw [hc, writeIdent_dash hd, ← writeNameStart_unNul]
          exact writeIdent_dash (hdash hd) _
    · rw [writeIdent_cons hc, ← writeNameStart_unNul]
      exact writeIdent_cons (hdash hc) _

theorem writeUnit_unNul (cs : List Char) : writeUnit (cs.map unNul) = writeUnit cs := by
  have same {c d : Char} (h : isCommon d = true) : (unNul c == d) = (c == d) := by
    rw [Bool.eq_iff_iff, beq_iff_eq, beq_iff_eq, unNul_eq_iff h]
  cases cs with
  | nil => rfl
  | cons c cs =>
    have he : (unNul c == 'e' || unNul c == 'E') = (c == 'e' || c == 'E') := by
      rw [same (by decide), same (by decide)]
    have hident := writeIdent_unNul (c :: cs)
    have hname := writeName_unNul cs
    have hescape (h : (c == 'e' || c == 'E') = true) : unNul c = c :=
      unNul_of_ne (toNat_lt_of_e (by simpa using h)).1
    cases cs with
    | nil =>
      rw [List.map_cons, List.map_nil] at hident ⊢
      simp only [writeUnit, he, hident]
      split
      · rename_i h
        rw [hescape (by simpa using h)]
      · rfl
    | cons d cs =>
      have hd : ((unNul d).isDigit || unNul d == '+' || unNul d == '-') =
          (d.isDigit || d == '+' || d == '-') := by
        rw [isDigit_unNul, same (by decide), same (by decide)]
      simp only [List.map_cons] at hident hname ⊢
      simp only [writeUnit, he, hd, hident, hname]
      split
      · rename_i h
        rw [hescape (Bool.and_eq_true_iff.1 h).1]
      · rfl

/-- A text with U+FFFD for every null character. -/
def decodedText (s : String) : String := String.ofList (s.toList.map unNul)

theorem toList_decodedText (s : String) : (decodedText s).toList = s.toList.map unNul :=
  String.toList_ofList

theorem nul_not_mem_decodedText (s : String) : nul ∉ (decodedText s).toList := by
  rw [toList_decodedText]
  intro h
  obtain ⟨c, -, hc⟩ := List.mem_map.1 h
  exact unNul_ne_nul c hc

theorem decodedText_eq_self_iff {s : String} : decodedText s = s ↔ nul ∉ s.toList := by
  constructor
  · intro h
    rw [← h]
    exact nul_not_mem_decodedText s
  · intro h
    have hmap : s.toList.map unNul = s.toList.map id :=
      List.map_congr_left fun c hc => unNul_of_ne fun e => h (e ▸ hc)
    rw [decodedText, hmap, List.map_id, String.ofList_toList]

theorem toLower_ne_nul {c : Char} (h : c ≠ nul) : c.toLower ≠ nul := by
  unfold Char.toLower
  split
  · rename_i hu
    intro e
    have hv := congrArg (fun d : Char => d.val.toNat) e
    simp only [nul, UInt32.toNat_add, ge_iff_le, UInt32.le_iff_toNat_le] at hu hv
    have hshift : ('a'.val - 'A'.val).toNat = 32 := by decide
    have hfirst : 'A'.val.toNat = 65 := by decide
    have hlast : 'Z'.val.toNat = 90 := by decide
    have hzero : '\x00'.val.toNat = 0 := by decide
    omega
  · exact h

/-- Common characters are what a text is decoded to only where they stand in it. -/
theorem map_unNul_eq_iff {cs ds : List Char} (h : ds.all isCommon = true) :
    cs.map unNul = ds ↔ cs = ds := by
  induction cs generalizing ds with
  | nil => rfl
  | cons c cs ih =>
    cases ds with
    | nil => simp
    | cons d ds =>
      rw [List.all_cons, Bool.and_eq_true] at h
      rw [List.map_cons, List.cons.injEq, List.cons.injEq, unNul_eq_iff h.1, ih h.2]

theorem decodedText_eq_iff {s t : String} (h : t.toList.all isCommon = true) :
    decodedText s = t ↔ s = t := by
  rw [← String.toList_inj, toList_decodedText, map_unNul_eq_iff h, String.toList_inj]

theorem sameWord_decodedText {word : String} (h : (foldCase word).all isCommon = true)
    (s : String) : sameWord (decodedText s) word = sameWord s word := by
  have lower (c : Char) : (unNul c).toLower = unNul c.toLower := by
    by_cases hc : c = nul
    · rw [hc]
      decide
    · rw [unNul_of_ne hc, unNul_of_ne (toLower_ne_nul hc)]
  have hfold : foldCase (decodedText s) = (foldCase s).map unNul := by
    simp [foldCase, toList_decodedText, Function.comp_def, lower]
  rw [sameWord, sameWord, hfold, Bool.eq_iff_iff, beq_iff_eq, beq_iff_eq, map_unNul_eq_iff h]

/-! ## Values -/

namespace Value

mutual

/-- A value with U+FFFD for every null character in its texts. -/
def decoded : Value → Value
  | .string content => .string (decodedText content)
  | .number value unit => .number value (unit.map decodedText)
  | .ident name => .ident (decodedText name)
  | .color c => .color c
  | .url address => .url (decodedText address)
  | .call name arguments => .call (decodedText name) (decodedAll arguments)
  | .named name value => .named (decodedText name) (decoded value)
  | .list separator items => .list separator (decodedAll items)

def decodedAll : List Value → List Value
  | [] => []
  | v :: rest => decoded v :: decodedAll rest

end

theorem decodedAll_eq (items : List Value) : decodedAll items = items.map decoded := by
  induction items with
  | nil => rfl
  | cons v items ih => rw [decodedAll, ih, List.map_cons]

@[simp] theorem rank_decoded (v : Value) : v.decoded.rank = v.rank := by
  cases v <;> rfl

theorem numberText_decoded (x : Single) (unit : Option String) :
    numberText x (unit.map decodedText) = numberText x unit := by
  cases unit with
  | none => rfl
  | some u =>
    have hpercent : decodedText u = "%" ↔ u = "%" := decodedText_eq_iff (by decide)
    simp only [Option.map_some, numberText, hpercent, toList_decodedText, writeUnit_unNul]

mutual

theorem toText_decoded (v : Value) : v.decoded.toText = v.toText := by
  match v with
  | .string content =>
    rw [decoded, toText, toText, writeString, writeString, toList_decodedText, List.flatMap_map]
    simp only [stringChar_unNul]
  | .number value unit => exact numberText_decoded value unit
  | .ident name => rw [decoded, toText, toText, toList_decodedText, writeIdent_unNul]
  | .color c => rfl
  | .url address =>
    rw [decoded, toText, toText, writeString, writeString, toList_decodedText, List.flatMap_map]
    simp only [stringChar_unNul]
  | .call name arguments =>
    rw [decoded, toText, toText, toList_decodedText, writeIdent_unNul, joined_decodedAll]
  | .named name value =>
    rw [decoded, toText, toText, toList_decodedText, writeIdent_unNul, toText_decoded value]
  | .list separator items => exact joined_decodedAll separator.toText items

theorem joined_decodedAll (separator : String) (items : List Value) :
    joined separator (decodedAll items) = joined separator items := by
  match items with
  | [] => rfl
  | v :: rest => rw [decodedAll, joined, joined, toText_decoded v, joinedTail_decodedAll separator rest]

theorem joinedTail_decodedAll (separator : String) (items : List Value) :
    joinedTail separator (decodedAll items) = joinedTail separator items := by
  match items with
  | [] => rfl
  | v :: rest =>
    rw [decodedAll, joinedTail, joinedTail, toText_decoded v, joinedTail_decodedAll separator rest]

end

mutual

theorem texts_decoded (v : Value) : v.decoded.texts = v.texts.map decodedText := by
  match v with
  | .string _ | .ident _ | .color _ | .url _ | .number _ none | .number _ (some _) => rfl
  | .call name arguments => exact congrArg (_ :: ·) (textsAll_decodedAll arguments)
  | .named name value => exact congrArg (_ :: ·) (texts_decoded value)
  | .list _ items => exact textsAll_decodedAll items

theorem textsAll_decodedAll (items : List Value) :
    textsAll (decodedAll items) = (textsAll items).map decodedText := by
  match items with
  | [] => rfl
  | v :: rest =>
    rw [decodedAll, textsAll, textsAll, List.map_append, texts_decoded v, textsAll_decodedAll rest]

end

mutual

theorem numbers_decoded (v : Value) : v.decoded.numbers = v.numbers := by
  match v with
  | .string _ | .ident _ | .color _ | .url _ | .number _ _ => rfl
  | .call _ arguments => exact numbersAll_decodedAll arguments
  | .named _ value => exact numbers_decoded value
  | .list _ items => exact numbersAll_decodedAll items

theorem numbersAll_decodedAll (items : List Value) :
    numbersAll (decodedAll items) = numbersAll items := by
  match items with
  | [] => rfl
  | v :: rest =>
    rw [decodedAll, numbersAll, numbersAll, numbers_decoded v, numbersAll_decodedAll rest]

end

/-- What a value is decoded to can be said, if its numbers can. -/
theorem isClean_decoded {v : Value} (h : ∀ x ∈ v.numbers, x.IsFinite ∧ x.ReadsBack) :
    v.decoded.IsClean := by
  refine ⟨fun x hx => h x (numbers_decoded v ▸ hx), fun s hs => ?_⟩
  rw [texts_decoded] at hs
  obtain ⟨t, -, rfl⟩ := List.mem_map.1 hs
  exact nul_not_mem_decodedText t

mutual

theorem decoded_of_noNul {v : Value} (h : ∀ s ∈ v.texts, nul ∉ s.toList) : v.decoded = v := by
  match v, h with
  | .string s, h => exact congrArg Value.string (decodedText_eq_self_iff.2 (h s List.mem_cons_self))
  | .number x none, _ => rfl
  | .number x (some u), h =>
    exact congrArg (fun t => Value.number x (some t))
      (decodedText_eq_self_iff.2 (h u List.mem_cons_self))
  | .ident s, h => exact congrArg Value.ident (decodedText_eq_self_iff.2 (h s List.mem_cons_self))
  | .color _, _ => rfl
  | .url s, h => exact congrArg Value.url (decodedText_eq_self_iff.2 (h s List.mem_cons_self))
  | .call name arguments, h =>
    obtain ⟨hname, harguments⟩ := List.forall_mem_cons.1 h
    rw [decoded, decodedText_eq_self_iff.2 hname, decodedAll_of_noNul harguments]
  | .named name value, h =>
    obtain ⟨hname, hvalue⟩ := List.forall_mem_cons.1 h
    rw [decoded, decodedText_eq_self_iff.2 hname, decoded_of_noNul hvalue]
  | .list separator items, h => rw [decoded, decodedAll_of_noNul h]

theorem decodedAll_of_noNul {items : List Value} (h : ∀ s ∈ textsAll items, nul ∉ s.toList) :
    decodedAll items = items := by
  match items, h with
  | [], _ => rfl
  | v :: rest, h =>
    obtain ⟨hv, hrest⟩ := List.forall_mem_append.1 h
    rw [decodedAll, decoded_of_noNul hv, decodedAll_of_noNul hrest]

end

theorem decoded_eq_self_iff {v : Value} : v.decoded = v ↔ ∀ s ∈ v.texts, nul ∉ s.toList := by
  refine ⟨fun h s hs => ?_, decoded_of_noNul⟩
  rw [← h, texts_decoded] at hs
  obtain ⟨t, -, rfl⟩ := List.mem_map.1 hs
  exact nul_not_mem_decodedText t

mutual

/-- A value is equal to itself where its numbers are. -/
theorem equal_self {v : Value} (h : ∀ x ∈ v.numbers, x.IsFinite) : v.equal v = true := by
  match v, h with
  | .string _, _ | .ident _, _ | .color _, _ | .url _, _ => simp [equal]
  | .number (.finite _ _ _) unit, _ => simp [equal, Binary.equal]
  | .number (.infinite _) unit, h | .number .nan unit, h => exact absurd (h _ List.mem_cons_self) id
  | .call name arguments, h => simp [equal, equalAll_self h]
  | .named name value, h =>
    have hvalue : value.equal value = true := equal_self h
    simp [equal, hvalue]
  | .list separator items, h => simp [equal, equalAll_self h]

theorem equalAll_self {items : List Value} (h : ∀ x ∈ numbersAll items, x.IsFinite) :
    equalAll items items = true := by
  match items, h with
  | [], _ => rfl
  | v :: rest, h =>
    obtain ⟨hv, hrest⟩ := List.forall_mem_append.1 h
    rw [equalAll, equal_self hv, equalAll_self hrest]
    rfl

end

mutual

theorem decoded_of_equal {v : Value} (h : v.decoded.equal v = true) : v.decoded = v := by
  match v, h with
  | .string _, h | .ident _, h | .url _, h => simpa [decoded, equal] using h
  | .color _, _ => rfl
  | .number x unit, h =>
    simp only [decoded, equal, Bool.and_eq_true, beq_iff_eq] at h
    rw [decoded, h.2]
  | .call name arguments, h =>
    simp only [decoded, equal, Bool.and_eq_true, beq_iff_eq] at h
    rw [decoded, h.1, decodedAll_of_equal h.2]
  | .named name value, h =>
    simp only [decoded, equal, Bool.and_eq_true, beq_iff_eq] at h
    rw [decoded, h.1, decoded_of_equal h.2]
  | .list separator items, h =>
    simp only [decoded, equal, Bool.and_eq_true] at h
    rw [decoded, decodedAll_of_equal h.2]

theorem decodedAll_of_equal {items : List Value} (h : equalAll (decodedAll items) items = true) :
    decodedAll items = items := by
  match items, h with
  | [], _ => rfl
  | v :: rest, h =>
    simp only [decodedAll, equalAll, Bool.and_eq_true] at h
    rw [decodedAll, decoded_of_equal h.1, decodedAll_of_equal h.2]

end

/-- What a value is decoded to is equal to it only where it holds no null character. -/
theorem equal_decoded_iff {v : Value} (h : ∀ x ∈ v.numbers, x.IsFinite) :
    v.decoded.equal v = true ↔ ∀ s ∈ v.texts, nul ∉ s.toList := by
  refine ⟨fun he => decoded_eq_self_iff.1 (decoded_of_equal he), fun ht => ?_⟩
  rw [decoded_of_noNul ht]
  exact equal_self h

/-! ## The shape -/

theorem channel?_decoded (v : Value) : v.decoded.channel? = v.channel? := by
  cases v with
  | number x unit =>
    cases unit with
    | none => rfl
    | some u =>
      by_cases hu : u = "%"
      · rw [hu]
        rfl
      · have hd : decodedText u ≠ "%" := fun e => hu ((decodedText_eq_iff (by decide)).1 e)
        simp only [decoded, Option.map_some]
        unfold channel?
        split <;> simp_all
  | _ => rfl

theorem opacity?_decoded (v : Value) : v.decoded.opacity? = v.opacity? := by
  cases v with
  | number x unit => cases unit <;> rfl
  | _ => rfl

/-- Decoding makes no call a color. -/
theorem colorCall?_decoded (name : String) (arguments : List Value) :
    colorCall? (decodedText name) (decodedAll arguments) = colorCall? name arguments := by
  have hrgb : sameWord (decodedText name) "rgb" = sameWord name "rgb" :=
    sameWord_decodedText (by decide) name
  have hrgba : sameWord (decodedText name) "rgba" = sameWord name "rgba" :=
    sameWord_decodedText (by decide) name
  -- only the channels of three or four arguments are looked at
  rcases arguments with _ | ⟨r, _ | ⟨g, _ | ⟨b, _ | ⟨a, _ | ⟨x, rest⟩⟩⟩⟩⟩ <;>
    simp only [decodedAll, colorCall?, hrgb, hrgba, channel?_decoded, opacity?_decoded]

mutual

theorem row_decoded (v : Value) :
    v.decoded.row = (v.row.1.decoded, v.row.2.map fun p => (p.1, p.2.decoded)) := by
  match v with
  | .string _ | .ident _ | .color _ | .url _ | .number _ _ | .call _ _ | .named _ _ | .list _ [] => rfl
  | .list separator (v :: rest) =>
    rw [decoded, decodedAll, row, row, row_decoded v, rowTail_decodedAll separator rest,
      List.map_append]

theorem rowTail_decodedAll (separator : Separator) (items : List Value) :
    rowTail separator (decodedAll items) =
      (rowTail separator items).map fun p => (p.1, p.2.decoded) := by
  match items with
  | [] => rfl
  | v :: rest =>
    rw [decodedAll, rowTail, rowTail, row_decoded v, rowTail_decodedAll separator rest,
      List.map_cons, List.map_append]

end

theorem OpensQuoted.decoded {arguments : List Value} (h : OpensQuoted arguments) :
    OpensQuoted (decodedAll arguments) := by
  obtain ⟨s, p, items, e⟩ := h
  have hrow := row_decoded (.list .comma arguments)
  rw [e] at hrow
  exact ⟨_, _, _, hrow⟩

theorem toList_decodedText_ne_nil {s : String} (h : s.toList ≠ []) :
    (decodedText s).toList ≠ [] := by
  rw [toList_decodedText]
  exact fun e => h (List.map_eq_nil_iff.1 e)

mutual

theorem IsShaped.decoded {named : Bool} {v : Value} (h : v.IsShaped named) :
    v.decoded.IsShaped named := by
  match v, h with
  | .string _, _ | .color _, _ | .url _, _ => exact trivial
  | .number _ unit, h =>
    rw [IsShaped] at h
    intro u hu
    obtain ⟨t, ht, rfl⟩ := Option.map_eq_some_iff.1 hu
    exact toList_decodedText_ne_nil (h t ht)
  | .ident name, h =>
    exact toList_decodedText_ne_nil h
  | .call name arguments, h =>
    rw [IsShaped] at h
    obtain ⟨hname, hcolor, hurl, hitems⟩ := h
    refine ⟨toList_decodedText_ne_nil hname, by rwa [colorCall?_decoded], fun hu => ?_,
      ShapedItems.decoded hitems⟩
    rw [sameWord_decodedText (by decide)] at hu
    exact (hurl hu).decoded
  | .named name value, h =>
    rw [IsShaped] at h
    obtain ⟨hnamed, hname, hrank, hvalue⟩ := h
    exact ⟨hnamed, toList_decodedText_ne_nil hname, by rwa [rank_decoded], hvalue.decoded⟩
  | .list separator items, h =>
    rw [IsShaped] at h
    refine ⟨?_, ShapedItems.decoded h.2⟩
    rw [decodedAll_eq, List.length_map]
    exact h.1

theorem ShapedItems.decoded {named : Bool} {strength : Nat} {items : List Value}
    (h : ShapedItems named strength items) : ShapedItems named strength (decodedAll items) := by
  match items, h with
  | [], _ => exact trivial
  | v :: rest, h =>
    rw [ShapedItems] at h
    exact ⟨h.1.decoded, by rw [rank_decoded]; exact h.2.1, ShapedItems.decoded h.2.2⟩

end

end Value

end Stylesheet
