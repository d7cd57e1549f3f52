import Stylesheet.Proofs.Reading.SelectorShape

/-!
# The shape of declarations and media queries that are read

The values of declarations and of media features have the shape of values. The words of a query are
its qualifier and its medium; where a medium could be taken for a qualifier, the query ends behind it
(`mediaQuery_shaped`).
-/

namespace Stylesheet

open Computability Grammar Stylesheet.Tree

namespace Reading

variable {r : Reading}

/-! ## Declarations and features -/

/-- The value of a declaration is the one that stands in it. -/
theorem declaration_value {t : Tree} (h : Derived r.tokens t) (hk : t.kind? = some .declaration)
    {d : Declaration} (hd : (r.declaration t).result = some d) :
    ∃ place ts, .node .value place ts ∈ t.children ∧ ts ∈ valueRow (leafOf r.tokens) false ∧
      (r.value (.node .value place ts)).result = some d.value := by
  obtain ⟨place, children, rfl, hp, -⟩ := h.row hk
  obtain ⟨i, name, colon, place', ts, is, -, rfl, hts⟩ := mem_declaration hp
  unfold declaration at hd
  split at hd
  · rename_i v hv
    cases hv
    obtain ⟨w, hw, rfl⟩ := Option.map_eq_some_iff.1 hd
    exact ⟨place', ts, by simp [Tree.children], hts, hw⟩
  · contradiction

theorem declaration_shaped {t : Tree} (h : Sound r t) (hk : t.kind? = some .declaration)
    {d : Declaration} (hd : (r.declaration t).result = some d) : d.value.IsShaped false := by
  obtain ⟨place, ts, hm, hts, hv⟩ := declaration_value h.derived hk hd
  exact value_shaped (h.child hm) hts hv

theorem declarations_shaped {block : Tree} (h : ∀ t ∈ block.nodesOf .declaration, Sound r t) :
    ∀ d ∈ (r.declarations block).result, d.value.IsShaped false := by
  rw [declarations, Noted.collect?_result]
  intro d hd
  obtain ⟨t, ht, e⟩ := List.mem_filterMap.1 hd
  exact declaration_shaped (h t ht) (beq_iff_eq.1 (List.mem_filter.1 ht).2) e

/-- The value of a feature, if it has one, is the one that stands in it. -/
theorem mediaFeature_value {t : Tree} (h : Derived r.tokens t) (hk : t.kind? = some .mediaFeature)
    {f : MediaFeature} (hf : (r.mediaFeature t).result = some f) {v : Value} (hv : f.value = some v) :
    ∃ place ts, .node .value place ts ∈ t.children ∧ ts ∈ valueRow (leafOf r.tokens) false ∧
      (r.value (.node .value place ts)).result = some v := by
  obtain ⟨place, children, rfl, hp, -⟩ := h.row hk
  obtain ⟨p, i, name, row, c, -, -, rfl, hrow⟩ := mem_mediaFeature hp
  unfold mediaFeature at hf
  split at hf
  · contradiction
  · rcases hrow with rfl | ⟨colon, place', ts, rfl, hts⟩
    · cases hf
      contradiction
    · cases hf
      exact ⟨place', ts, by simp [Tree.children], hts, hv⟩

theorem mediaFeature_shaped {t : Tree} (h : Sound r t) (hk : t.kind? = some .mediaFeature)
    {f : MediaFeature} (hf : (r.mediaFeature t).result = some f) :
    ∀ v ∈ f.value, v.IsShaped false := by
  intro v hv
  obtain ⟨place, ts, hm, hts, hv⟩ := mediaFeature_value h.derived hk hf hv
  exact value_shaped (h.child hm) hts hv

/-! ## Media queries -/

/-- The words among trees that count: all but `and`. -/
def mediaWordsOf (r : Reading) (ts : List Tree) : List String :=
  ((ts.filterMap Tree.index?).filterMap r.ident?).filter fun word => !sameWord word "and"

theorem mediaWordsOf_append (ts us : List Tree) :
    r.mediaWordsOf (ts ++ us) = r.mediaWordsOf ts ++ r.mediaWordsOf us := by
  rw [mediaWordsOf, List.filterMap_append, List.filterMap_append, List.filter_append]
  rfl

theorem mediaWordsOf_ident {i : Nat} {name : String} (h : r.kind? i = some (.ident name)) :
    r.mediaWordsOf [.leaf i] = if sameWord name "and" then [] else [name] := by
  have hi : r.ident? i = some name := by rw [ident?, h]
  cases hw : sameWord name "and" <;> simp [mediaWordsOf, Tree.index?, hi, hw]

theorem mediaWordsOf_feature {row : List Tree} (h : row ∈ nodeOf .mediaFeature) :
    r.mediaWordsOf row = [] := by
  obtain ⟨_, _, _, _, rfl⟩ := h
  rfl

/-- What is joined to the head of a query has no words but `and`. -/
theorem mediaWordsOf_further {row : List Tree}
    (h : row ∈ [leafOf r.tokens isAnd, nodeOf .mediaFeature].prod∗) : r.mediaWordsOf row = [] := by
  induction h using star_induction with
  | nil => rfl
  | cons part hpart rest _ ih =>
    obtain ⟨word, feature, hw, hf, rfl⟩ := mem_prod_cons hpart
    obtain ⟨i, u, rfl, -, hi, hu⟩ := leafOf_kind? hw
    rw [mediaWordsOf_append, mediaWordsOf_append, ih, mediaWordsOf_feature (mem_prod_last hf)]
    cases hk : u.kind with
    | ident name =>
      rw [hk] at hi hu
      have hand : sameWord name "and" = true := hu
      rw [mediaWordsOf_ident hi, if_pos hand]
      rfl
    | _ => rw [hk] at hu; contradiction

/-- A word is no two words. -/
theorem sameWord_and {name word : String} (h : sameWord name word = true)
    (hw : foldCase word ≠ foldCase "and") : sameWord name "and" = false := by
  rw [sameWord, beq_iff_eq] at h
  rw [sameWord, h]
  exact beq_eq_false_iff_ne.2 hw

theorem ident_of_isQualifier {k : TokenKind} (h : isQualifier k = true) :
    ∃ name, k = .ident name ∧ (sameWord name "only" || sameWord name "not") = true ∧
      sameWord name "and" = false := by
  cases k with
  | ident name =>
    have h : (sameWord name "only" || sameWord name "not") = true := h
    refine ⟨name, rfl, h, ?_⟩
    rcases Bool.or_eq_true_iff.1 h with h | h
    · exact sameWord_and h (by decide)
    · exact sameWord_and h (by decide)
  | _ => contradiction

theorem ident_of_isMediaType {k : TokenKind} (h : isMediaType k = true) :
    ∃ name, k = .ident name ∧ sameWord name "and" = false := by
  cases k with
  | ident name => exact ⟨name, rfl, by simpa [isMediaType, TokenKind.isIdent, isAnd, isWord] using h⟩
  | _ => contradiction

theorem isMediaType_ident {m : String} (h : sameWord m "and" = false) :
    isMediaType (.ident m) = true := by
  simp [isMediaType, TokenKind.isIdent, isAnd, isWord, h]

/-- A word that may be a medium. -/
theorem mediaWordsOf_leaf {p : TokenKind → Bool} (hp : ∀ k, p k = true → isMediaType k = true)
    {head : List Tree} (h : head ∈ leafOf r.tokens p) :
    ∃ name, r.mediaWordsOf head = [name] ∧ p (.ident name) = true ∧ sameWord name "and" = false := by
  obtain ⟨i, u, rfl, -, hi, hu⟩ := leafOf_kind? h
  obtain ⟨name, hk, hand⟩ := ident_of_isMediaType (hp _ hu)
  rw [hk] at hi hu
  exact ⟨name, by rw [mediaWordsOf_ident hi, hand]; rfl, hu, hand⟩

/-- A qualifier in front of a medium. -/
theorem mediaWordsOf_qualified {head : List Tree}
    (h : head ∈ [leafOf r.tokens isQualifier, leafOf r.tokens isMediaType].prod) :
    ∃ a b, r.mediaWordsOf head = [a, b] ∧ sameWord b "and" = false := by
  obtain ⟨qualifier, medium, hl, hm, rfl⟩ := mem_prod_cons h
  obtain ⟨i, u, rfl, -, hi, hu⟩ := leafOf_kind? hl
  obtain ⟨a, ha, -, hand⟩ := ident_of_isQualifier hu
  obtain ⟨b, hb, -, hand'⟩ := mediaWordsOf_leaf (fun _ hk => hk) (mem_prod_last hm)
  rw [ha] at hi
  exact ⟨a, b, by rw [mediaWordsOf_append, mediaWordsOf_ident hi, hand, hb]; rfl, hand'⟩

theorem mediaFeatures_shaped {t : Tree} (h : Sound r t) :
    ∀ f ∈ (Noted.collect? r.mediaFeature (t.nodesOf .mediaFeature)).result,
      ∀ v ∈ f.value, v.IsShaped false := by
  rw [Noted.collect?_result]
  intro f hf
  obtain ⟨u, hu, e⟩ := List.mem_filterMap.1 hf
  obtain ⟨hm, hk⟩ := List.mem_filter.1 hu
  exact mediaFeature_shaped (h.child hm) (beq_iff_eq.1 hk) e

/-- The words of a query are those of its head. -/
theorem mediaQuery_result (place : Nat) {head more : List Tree}
    (hmore : more ∈ [leafOf r.tokens isAnd, nodeOf .mediaFeature].prod∗) :
    (r.mediaQuery (.node .mediaQuery place (head ++ more))).result =
      ⟨(mediaWords (r.mediaWordsOf head)).1, (mediaWords (r.mediaWordsOf head)).2,
        (Noted.collect? r.mediaFeature
          ((Tree.node .mediaQuery place (head ++ more)).nodesOf .mediaFeature)).result⟩ := by
  have hall : r.mediaWordsOf (head ++ more) = r.mediaWordsOf head := by
    rw [mediaWordsOf_append, mediaWordsOf_further hmore, List.append_nil]
  rw [← hall]
  rfl

/-- A query names a medium or has a feature, and its medium is not called `and`. -/
theorem mediaQuery_filled {t : Tree} (h : Derived r.tokens t) (hk : t.kind? = some .mediaQuery) :
    ((r.mediaQuery t).result.mediaType = none →
      (r.mediaQuery t).result.qualifier = none ∧ (r.mediaQuery t).result.features ≠ []) ∧
      ∀ m ∈ (r.mediaQuery t).result.mediaType, sameWord m "and" = false := by
  obtain ⟨place, children, rfl, hp, hs⟩ := h.row hk
  obtain ⟨head, more, hhead, hmore, rfl⟩ := mem_prod_cons hp
  rw [mediaQuery_result place (mem_prod_last hmore)]
  have medium {words : List String} {m : String} (hw : (mediaWords words).2 = some m)
      (hand : sameWord m "and" = false) {P : Prop} :
      ((mediaWords words).2 = none → P) ∧ ∀ m ∈ (mediaWords words).2, sameWord m "and" = false := by
    rw [hw]
    refine ⟨fun e => by contradiction, fun m' h => ?_⟩
    rw [← Option.some.inj h]
    exact hand
  rcases hhead with (hhead | hhead) | hhead
  · obtain ⟨a, b, hw, hand⟩ := mediaWordsOf_qualified hhead
    exact medium (m := b) (by rw [hw]; rfl) hand
  · obtain ⟨a, hw, -, hand⟩ := mediaWordsOf_leaf (fun _ hk => hk) hhead
    exact medium (m := a) (by rw [hw]; rfl) hand
  · -- a feature
    rw [mediaWordsOf_feature hhead]
    obtain ⟨kind, hkind, place', ts, rfl⟩ := hhead
    cases List.mem_singleton.1 hkind
    have hm : Tree.node .mediaFeature place' ts ∈
        (Tree.node .mediaQuery place ([.node .mediaFeature place' ts] ++ more)).children :=
      List.mem_cons_self
    obtain ⟨f, hf⟩ := (mediaFeature_whole (hs _ hm) rfl).found
    refine ⟨fun _ => ⟨rfl, ?_⟩, fun _ hm => by contradiction⟩
    dsimp only
    rw [Noted.collect?_result]
    exact List.ne_nil_of_mem (List.mem_filterMap.2 ⟨_, List.mem_filter.2 ⟨hm, rfl⟩, hf⟩)

/-- A query that was accepted has the shape of a query. -/
theorem mediaQuery_shaped {s rest : Tokens} {t : Tree} (hs : DrawnFrom r.tokens s)
    (ht : Grammar.mediaQuery s = .accepted t rest) (h : Sound r t) :
    (r.mediaQuery t).result.IsShaped := by
  obtain ⟨place, head, more, rfl, hmore, hhead⟩ := mediaQuery_accepted hs ht
  obtain ⟨hfilled, hmedium⟩ := mediaQuery_filled h.derived rfl
  refine ⟨hfilled, hmedium, fun hq m hm hw => ?_, fun v hv => ?_⟩
  · rw [mediaQuery_result place hmore] at hq hm ⊢
    rcases hhead with hhead | hhead | ⟨hhead, rfl⟩ | hhead
    · obtain ⟨a, b, hwords, -⟩ := mediaWordsOf_qualified hhead
      rw [hwords] at hq
      contradiction
    · -- a medium that is no qualifier
      obtain ⟨a, hwords, hp, -⟩ :=
        mediaWordsOf_leaf (fun _ hk => (Bool.and_eq_true_iff.1 hk).1) hhead
      rw [hwords] at hm
      obtain rfl : a = m := Option.some.inj hm
      have hnot := (Bool.and_eq_true_iff.1 hp).2
      rw [show isQualifier (.ident a) = (sameWord a "only" || sameWord a "not") from rfl, hw] at hnot
      contradiction
    · obtain ⟨i, u, rfl, -⟩ := leafOf_kind? hhead
      rfl
    · rw [mediaWordsOf_feature hhead] at hm
      contradiction
  · obtain ⟨f, hf, hfv⟩ := List.mem_filterMap.1 hv
    exact mediaFeatures_shaped h f hf v hfv

end Reading

end Stylesheet
