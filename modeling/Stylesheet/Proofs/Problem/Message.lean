import Stylesheet.Problem

/-!
# Messages

The text of a template is written so that its markers can be told from the rest
(`Template.IsPlain`): they are its places (`Template.mem_places_iff`), and putting values in for the
markers that are found fills the places (`Template.substitute_source`), whatever the values contain.
A problem is complete if it comes from the source it should and has a value for each place
(`Problem.IsComplete`).
-/

namespace Stylesheet

namespace Piece

theorem toList_marker (name : String) :
    (marker name).toList = '$' :: '\x7b' :: (name.toList ++ ['\x7d']) := by
  simp only [marker, String.toList_append]
  rfl

/-- A text starts no marker, and a name neither starts one nor ends its own. -/
def IsPlain : Piece → Prop
  | .text s => '$' ∉ s.toList
  | .place name => '$' ∉ name.toList ∧ '\x7d' ∉ name.toList

instance : DecidablePred IsPlain
  | .text s => inferInstanceAs (Decidable ('$' ∉ s.toList))
  | .place name => inferInstanceAs (Decidable ('$' ∉ name.toList ∧ '\x7d' ∉ name.toList))

end Piece

/-! ## Markers -/

/-- The text holds the marker of a name: what stands between `$\x7b` and the next `\x7d`. -/
def HoldsMarker (text : List Char) (name : String) : Prop :=
  '\x7d' ∉ name.toList ∧ (Piece.marker name).toList <:+: text

namespace HoldsMarker

variable {front text : List Char} {name : String}

theorem nil : ¬ HoldsMarker [] name := by
  rintro ⟨-, h⟩
  rw [Piece.toList_marker] at h
  exact List.cons_ne_nil _ _ (List.infix_nil.1 h)

/-- No marker begins in a text without `$`. -/
theorem append_iff (h : '$' ∉ front) : HoldsMarker (front ++ text) name ↔ HoldsMarker text name := by
  induction front with
  | nil => exact Iff.rfl
  | cons c front ih =>
    have hc : '$' ≠ c := fun e => h (e ▸ List.mem_cons_self)
    rw [← ih fun hm => h (List.mem_cons_of_mem c hm), HoldsMarker, HoldsMarker, Piece.toList_marker,
      List.cons_append, List.infix_cons_iff, List.cons_prefix_cons]
    simp only [hc, false_and, false_or]

/-- Two names without `\x7d` that end at the first one are one name. -/
theorem name_eq {m n : List Char} (hm : '\x7d' ∉ m) (hn : '\x7d' ∉ n)
    (h : m ++ ['\x7d'] <+: n ++ '\x7d' :: text) : m = n := by
  induction m generalizing n with
  | nil =>
    cases n with
    | nil => rfl
    | cons c n =>
      rw [List.nil_append, List.cons_append, List.cons_prefix_cons] at h
      exact absurd (h.1 ▸ List.mem_cons_self) hn
  | cons d m ih =>
    cases n with
    | nil =>
      rw [List.nil_append, List.cons_append, List.cons_prefix_cons] at h
      exact absurd (h.1 ▸ List.mem_cons_self) hm
    | cons c n =>
      rw [List.cons_append, List.cons_append, List.cons_prefix_cons] at h
      rw [h.1, ih (List.not_mem_of_not_mem_cons hm) (List.not_mem_of_not_mem_cons hn) h.2]

/-- A marker at the front of a text is the first one that it holds. -/
theorem marker_append_iff {other : String} (h : '$' ∉ other.toList) (hb : '\x7d' ∉ other.toList) :
    HoldsMarker ((Piece.marker other).toList ++ text) name ↔
      name = other ∨ HoldsMarker text name := by
  have hrest : '$' ∉ '\x7b' :: (other.toList ++ ['\x7d']) := by
    simp only [List.mem_cons, List.mem_append, List.not_mem_nil, or_false, not_or]
    exact ⟨by decide, h, by decide⟩
  have hskip : HoldsMarker ('\x7b' :: (other.toList ++ ['\x7d']) ++ text) name ↔
      HoldsMarker text name := append_iff hrest
  have hsplit : HoldsMarker ((Piece.marker other).toList ++ text) name ↔
      ('\x7d' ∉ name.toList ∧ (Piece.marker name).toList <+: (Piece.marker other).toList ++ text) ∨
        HoldsMarker text name := by
    rw [← hskip, HoldsMarker, HoldsMarker, Piece.toList_marker other, List.cons_append,
      List.infix_cons_iff, and_or_left]
  rw [hsplit]
  refine or_congr_left ⟨?_, ?_⟩
  · rintro ⟨hn, hp⟩
    rw [Piece.toList_marker, Piece.toList_marker] at hp
    simp only [List.cons_append, List.append_assoc, List.cons_prefix_cons, true_and,
      List.nil_append] at hp
    exact String.toList_inj.1 (name_eq hn hb hp)
  · rintro rfl
    exact ⟨hb, List.prefix_append _ _⟩

end HoldsMarker

/-! ## Templates -/

namespace Template

variable {value? : String → Option String} {text front : List Char}

/-- Text without `$` is copied. -/
theorem substitute_append (h : '$' ∉ front) :
    substitute value? (front ++ text) = front ++ substitute value? text := by
  induction front with
  | nil => rfl
  | cons c front ih =>
    have hc : c ≠ '$' := fun e => h (e ▸ List.mem_cons_self)
    have hcopy : substitute value? (c :: (front ++ text)) = c :: substitute value? (front ++ text) := by
      rw [substitute]
      exact fun _ e _ => hc e
    rw [List.cons_append, hcopy, ih fun hm => h (List.mem_cons_of_mem c hm), List.cons_append]

/-- A marker gives way to its value, if there is one. -/
theorem substitute_marker {name : String} (h : '\x7d' ∉ name.toList) :
    substitute value? ((Piece.marker name).toList ++ text) =
      ((value? name).getD (Piece.marker name)).toList ++ substitute value? text := by
  have hall : ∀ c ∈ name.toList, (c != '\x7d') = true := fun c hc =>
    bne_iff_ne.2 fun e => h (e ▸ hc)
  have htake : (name.toList ++ '\x7d' :: text).takeWhile (· != '\x7d') = name.toList := by
    rw [List.takeWhile_append_of_pos hall]
    exact List.append_nil _
  have hdrop : (name.toList ++ '\x7d' :: text).dropWhile (· != '\x7d') = '\x7d' :: text := by
    rw [List.dropWhile_append_of_pos hall]
    rfl
  rw [Piece.toList_marker]
  simp only [List.cons_append, List.append_assoc, List.nil_append]
  rw [substitute]
  split
  · rename_i e
    rw [hdrop] at e
    exact absurd e (List.cons_ne_nil _ _)
  · rename_i c behind e
    obtain ⟨-, rfl⟩ := List.cons.inj (hdrop.symm.trans e)
    rw [htake, String.ofList_toList]

def IsPlain (t : Template) : Prop := ∀ piece ∈ t, piece.IsPlain

instance : DecidablePred IsPlain := fun t => inferInstanceAs (Decidable (∀ piece ∈ t, piece.IsPlain))

theorem source_cons (piece : Piece) (t : Template) :
    (source (piece :: t)).toList = piece.source.toList ++ (source t).toList := by
  rw [source, List.map_cons, String.join_cons, String.toList_append]
  rfl

theorem fill_cons (piece : Piece) (t : Template) :
    (fill (piece :: t) value?).toList = (piece.fill value?).toList ++ (fill t value?).toList := by
  rw [fill, List.map_cons, String.join_cons, String.toList_append]
  rfl

/-- What is found in the text of a template fills its places. -/
theorem substitute_source {t : Template} (h : t.IsPlain) :
    substitute value? t.source.toList = (t.fill value?).toList := by
  induction t with
  | nil => rw [show (source []).toList = [] from rfl, substitute]; rfl
  | cons piece t ih =>
    have ht := ih fun p hp => h p (List.mem_cons_of_mem piece hp)
    have hpiece := h piece List.mem_cons_self
    rw [source_cons, fill_cons, ← ht]
    cases piece with
    | text s => exact substitute_append hpiece
    | place name => exact substitute_marker hpiece.2

/-- The places of a template are the markers in its text. -/
theorem mem_places_iff {t : Template} (h : t.IsPlain) (name : String) :
    name ∈ t.places ↔ HoldsMarker t.source.toList name := by
  induction t with
  | nil => exact ⟨fun hm => absurd hm List.not_mem_nil, fun hm => absurd hm HoldsMarker.nil⟩
  | cons piece t ih =>
    have ht := ih fun p hp => h p (List.mem_cons_of_mem piece hp)
    have hpiece := h piece List.mem_cons_self
    rw [source_cons]
    cases piece with
    | text s => exact ht.trans (HoldsMarker.append_iff hpiece).symm
    | place other =>
      rw [show places (.place other :: t) = other :: places t from rfl, List.mem_cons, ht]
      exact (HoldsMarker.marker_append_iff hpiece.1 hpiece.2).symm

end Template

namespace ProblemKind

theorem isPlain_template (k : ProblemKind) : k.template.IsPlain := by
  cases k <;> decide

theorem nodup_places (k : ProblemKind) : k.template.places.Nodup := by
  cases k <;> decide

end ProblemKind

/-! ## Problems -/

namespace Problem

/-- The message is the template with its places filled. -/
theorem message_eq (p : Problem) : p.message = p.kind.template.fill p.param? := by
  rw [message, Template.substitute_source p.kind.isPlain_template, String.ofList_toList]

/-- Found in the source, and with a value for each place of the message and for nothing else. -/
def IsComplete (source : String) (p : Problem) : Prop :=
  p.source = source ∧ p.params.map Prod.fst = p.kind.template.places

/-- A name that has no value yet comes last. -/
theorem setParam_of_new {name value : String} {known : List (String × String)}
    (h : name ∉ known.map Prod.fst) : setParam name value known = known ++ [(name, value)] := by
  induction known with
  | nil => rfl
  | cons entry known ih =>
    rw [List.map_cons, List.mem_cons, not_or] at h
    rw [setParam, if_neg (Ne.symm h.1), ih h.2, List.cons_append]

/-- Values with names of their own are kept as they are given. -/
theorem foldl_setParam {params known : List (String × String)}
    (h : ((known ++ params).map Prod.fst).Nodup) :
    params.foldl (fun known entry => setParam entry.1 entry.2 known) known = known ++ params := by
  induction params generalizing known with
  | nil => exact (List.append_nil known).symm
  | cons entry params ih =>
    have hnew : entry.1 ∉ known.map Prod.fst := by
      rw [List.map_append, List.map_cons] at h
      exact fun hm => (List.nodup_append.1 h).2.2 _ hm _ List.mem_cons_self rfl
    rw [List.append_cons] at h ⊢
    rw [List.foldl_cons, setParam_of_new hnew]
    exact ih h

theorem params_ofParams {kind : ProblemKind} {source : String} {span : Span}
    {params : List (String × String)} (h : (params.map Prod.fst).Nodup) :
    (ofParams kind source span params).params = params :=
  foldl_setParam (show (([] ++ params).map Prod.fst).Nodup from h)

theorem isComplete_ofParams {kind : ProblemKind} {source : String} {span : Span}
    {params : List (String × String)} (h : params.map Prod.fst = kind.template.places) :
    (ofParams kind source span params).IsComplete source := by
  refine ⟨rfl, ?_⟩
  rw [params_ofParams (h ▸ kind.nodup_places)]
  exact h

end Problem

end Stylesheet
