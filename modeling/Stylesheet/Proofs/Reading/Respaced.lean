import Stylesheet.Proofs.Reading.Alike

/-!
# Blanks between tokens

How many blanks stand between two tokens and how they are written makes no difference, as long as there
is at least one: the documents of respaced tokens say the same, the argument texts of pseudo-classes
aside, and the same problems are reported in the same order (`parseTokens_respaced`).
-/

namespace Stylesheet

namespace Reading

open Likeness

variable {r r' : Reading}

section

variable (hs : r.source = r'.source) {t u : Tree}

include hs

/-! ## Declarations and queries -/

theorem declaration_like (h : (likeness r r').NodeLike .declaration t u) :
    Noted.Like (Option.Rel fun d e => d.bare = e.bare) (r.declaration t) (r'.declaration u) := by
  have hi : (t.tokens.any fun index => r.kind? index == some .important) =
      u.tokens.any fun index => r'.kind? index == some .important := by
    have hkinds : t.tokens.map r.kind? = u.tokens.map r'.kind? :=
      map_eq_of_forall₂ (h.tokens rfl) fun _ _ => kind?_like
    have hany := congrArg (List.any · (· == some .important)) hkinds
    rwa [List.any_map, List.any_map] at hany
  have hv := h.2.child? .value
  rw [declaration, declaration, ident?_like h.2.first, hi]
  cases r'.ident? u.first with
  | none => exact .pure .none
  | some name =>
    generalize t.child? .value = v at hv
    generalize u.child? .value = v' at hv
    cases hv with
    | none => exact .pure .none
    | some hv =>
      refine .bind (value_like hs hv) fun w w' hw => .pure ?_
      subst hw
      cases w with
      | none => exact .none
      | some w => exact .some rfl

theorem declarations_like (h : (likeness r r').TreeLike t u) :
    Noted.Like (List.Forall₂ fun d e => d.bare = e.bare) (r.declarations t) (r'.declarations u) :=
  .collect? (h.nodesOf .declaration) fun _ _ hc => declaration_like hs hc

/-- What is made of the declarations of a block, if there is one. -/
theorem block_like {α β : Type} {R : α → β → Prop} {f : List Declaration → Noted α}
    {g : List Declaration → Noted β}
    (hfg : ∀ ds es, List.Forall₂ (fun d e => d.bare = e.bare) ds es → Noted.Like R (f ds) (g es)) :
    ∀ {block block' : Option Tree},
      Option.Rel ((likeness r r').NodeLike .declarationBlock) block block' →
      Noted.Like R
        (match block with
          | none => pure [] >>= f
          | some block => r.declarations block >>= f)
        (match block' with
          | none => pure [] >>= g
          | some block => r'.declarations block >>= g) := by
  intro block block' h
  cases h with
  | none => exact .bind (.pure .nil) hfg
  | some h => exact .bind (declarations_like hs h.2) hfg

omit hs in
theorem findSome?_like {γ : Type} {is js : List Nat} {f g : Nat → Option γ}
    (h : List.Forall₂ (likeness r r').index is js)
    (hfg : ∀ i j, (likeness r r').index i j → f i = g j) :
    is.findSome? f = js.findSome? g := by
  rw [← List.head?_filterMap, ← List.head?_filterMap, filterMap_eq_of_forall₂ h hfg]

theorem mediaFeature_like (h : (likeness r r').NodeLike .mediaFeature t u) :
    Noted.Like (Option.Rel Eq) (r.mediaFeature t) (r'.mediaFeature u) := by
  have hv := h.2.child? .value
  rw [mediaFeature, mediaFeature, findSome?_like (h.tokens rfl) fun _ _ => ident?_like]
  split
  · exact .pure .none
  · generalize t.child? .value = v at hv
    generalize u.child? .value = v' at hv
    cases hv with
    | none => exact .pure (.some rfl)
    | some hv => exact .bind (value_like hs hv) fun _ _ hw => .pure (.some (hw ▸ rfl))

theorem mediaQuery_like (h : (likeness r r').NodeLike .mediaQuery t u) :
    Noted.Like Eq (r.mediaQuery t) (r'.mediaQuery u) := by
  have hw : t.tokens.filterMap r.ident? = u.tokens.filterMap r'.ident? :=
    filterMap_eq_of_forall₂ (h.tokens rfl) fun _ _ => ident?_like
  rw [mediaQuery, mediaQuery, hw]
  refine .bind (.collect? (h.2.nodesOf .mediaFeature) fun _ _ hc => mediaFeature_like hs hc)
    fun _ _ hf => .pure ?_
  rw [List.forall₂_eq_eq_eq] at hf
  rw [hf]

theorem mediaQueries_like (h : (likeness r r').TreeLike t u) :
    Noted.Like Eq (r.mediaQueries t) (r'.mediaQueries u) := by
  have hl := h.child? .mediaQueryList
  rw [mediaQueries, mediaQueries]
  generalize t.child? .mediaQueryList = l at hl
  generalize u.child? .mediaQueryList = l' at hl
  cases hl with
  | none => exact .pure rfl
  | some hl =>
    have hq := Noted.Like.collect (hl.2.nodesOf .mediaQuery) fun _ _ hc => mediaQuery_like hs hc
    rwa [List.forall₂_eq_eq_eq] at hq

/-! ## Statements -/

theorem invalidAtRule_like (h : (likeness r r').TreeLike t u) :
    (r.invalidAtRule t).unplaced = (r'.invalidAtRule u).unplaced := by
  rw [invalidAtRule, invalidAtRule, kind?_first_like h]
  exact problem_like hs _ _ _ _

omit hs in
theorem any_isOf_like {ds es : List Declaration}
    (h : List.Forall₂ (fun d e => d.bare = e.bare) ds es) (name : String) :
    (ds.any fun d => d.isOf name) = es.any fun e => e.isOf name := by
  induction h with
  | nil => rfl
  | @cons d e _ _ hd _ ih =>
    rw [List.any_cons, List.any_cons, Declaration.isOf, Declaration.isOf,
      Declaration.name_of_bare hd, ih]

omit hs in
theorem replaceDescriptor_like {ds es : List Declaration}
    (h : List.Forall₂ (fun d e => d.bare = e.bare) ds es) {d e : Declaration}
    (hde : d.bare = e.bare) :
    List.Forall₂ (fun d e => d.bare = e.bare) (replaceDescriptor d ds) (replaceDescriptor e es) := by
  induction h with
  | nil => exact .nil
  | @cons a b _ _ hab htail ih =>
    rw [replaceDescriptor, replaceDescriptor, Declaration.isOf, Declaration.isOf,
      Declaration.name_of_bare hab, Declaration.name_of_bare hde]
    split
    · exact .cons hde htail
    · exact .cons hab ih

theorem descriptors_like {ds es kept kept' : List Declaration}
    (h : List.Forall₂ (fun d e => d.bare = e.bare) ds es)
    (hkept : List.Forall₂ (fun d e => d.bare = e.bare) kept kept') :
    Noted.Like (List.Forall₂ fun d e => d.bare = e.bare) (r.descriptors kept ds)
      (r'.descriptors kept' es) := by
  induction h generalizing kept kept' with
  | nil => exact .pure hkept
  | @cons d e _ _ hde _ ih =>
    rw [descriptors, descriptors, Declaration.name_of_bare hde, any_isOf_like hkept]
    split
    · exact .bind (.report (problem_like hs _ _ _ _)) fun _ _ _ =>
        ih (replaceDescriptor_like hkept hde)
    · exact ih (List.rel_append hkept (.cons hde .nil))

theorem fontFace_like (h : (likeness r r').TreeLike t u) :
    Noted.Like (fun f g => f.bare = g.bare) (r.fontFace t) (r'.fontFace u) := by
  unfold fontFace
  refine block_like hs (fun ds es hde => .bind (descriptors_like hs hde .nil) fun ds es hde =>
    .pure ?_) (h.child? .declarationBlock)
  rw [FontFace.bare, FontFace.bare, map_eq_of_forall₂ hde fun _ _ h => h]

omit hs in
/-- What the rules of a namespace rule are bound to. -/
theorem boundPrefix?_like (h : (likeness r r').TreeLike t u) :
    r.boundPrefix? t = r'.boundPrefix? u := by
  have hp := h.child? .namespacePrefix
  rw [boundPrefix?, boundPrefix?]
  generalize t.child? .namespacePrefix = p at hp
  generalize u.child? .namespacePrefix = p' at hp
  cases hp with
  | none => rfl
  | some hp =>
    have hi := head?_rel (hp.tokens rfl)
    rw [Option.bind_some, Option.bind_some]
    generalize List.head? _ = i at hi
    generalize List.head? _ = j at hi
    cases hi with
    | none => rfl
    | some hi => exact ident?_like hi

end

/-- Drafts that say the same, places aside. -/
structure DraftLike (a b : Draft) : Prop where
  namespaces : a.namespaces.map Namespace.bare = b.namespaces.map Namespace.bare
  fontFaces : a.fontFaces.map FontFace.bare = b.fontFaces.map FontFace.bare
  rules : a.rules.map Rule.unplaced = b.rules.map Rule.unplaced
  problems : a.problems.map Problem.unplaced = b.problems.map Problem.unplaced

theorem DraftLike.append {a a' b b' : Draft} (h : DraftLike a b) (h' : DraftLike a' b') :
    DraftLike (a ++ a') (b ++ b') where
  namespaces := by
    show (a.namespaces ++ a'.namespaces).map _ = (b.namespaces ++ b'.namespaces).map _
    rw [List.map_append, List.map_append, h.namespaces, h'.namespaces]
  fontFaces := by
    show (a.fontFaces ++ a'.fontFaces).map _ = (b.fontFaces ++ b'.fontFaces).map _
    rw [List.map_append, List.map_append, h.fontFaces, h'.fontFaces]
  rules := by
    show (a.rules ++ a'.rules).map _ = (b.rules ++ b'.rules).map _
    rw [List.map_append, List.map_append, h.rules, h'.rules]
  problems := by
    show ((a.notes ++ a'.notes).filterMap _).map _ = ((b.notes ++ b'.notes).filterMap _).map _
    rw [List.filterMap_append, List.filterMap_append, List.map_append, List.map_append]
    exact congrArg₂ _ h.problems h'.problems

theorem problems_of_noted (ps : List Problem) :
    (ps.map Note.problem).filterMap Note.problem? = ps := by
  rw [List.filterMap_map]
  exact List.filterMap_some

section

variable (hs : r.source = r'.source) (options : Options) {known known' : List Namespace}
  (hknown : known.map Namespace.bare = known'.map Namespace.bare)

include hs

include hknown in
theorem namespaceRule_like {t u : Tree}
    (h : (likeness r r').NodeLike .namespaceRule t u) :
    DraftLike (r.namespaceRule known t) (r'.namespaceRule known' u) := by
  have ha : t.tokens.findSome? r.address? = u.tokens.findSome? r'.address? :=
    findSome?_like (h.tokens rfl) fun i j hij => by rw [address?, address?, kind?_like hij]
  rw [namespaceRule, namespaceRule, ha, boundPrefix?_like h.2]
  split
  · exact ⟨rfl, rfl, rfl, rfl⟩
  · rename_i address _
    have hf : (Namespace.find? known (Namespace.key ⟨r'.boundPrefix? u, address, r.spanOf t⟩)).isSome =
        (Namespace.find? known' (Namespace.key ⟨r'.boundPrefix? u, address, r'.spanOf u⟩)).isSome := by
      have hsome := congrArg Option.isSome
        (find?_like hknown (Namespace.key ⟨r'.boundPrefix? u, address, r.spanOf t⟩))
      rwa [Option.isSome_map, Option.isSome_map] at hsome
    dsimp only
    rw [hf]
    split
    · exact ⟨rfl, rfl, rfl, congrArg (fun p => [p]) (problem_like hs _ _ _ _)⟩
    · exact ⟨rfl, rfl, rfl, rfl⟩

variable {media : List MediaQuery}

include hknown in
theorem rule_like {t u : Tree} (h : (likeness r r').TreeLike t u) :
    Noted.Like (Option.Rel fun a b => a.unplaced = b.unplaced) (r.rule options known media t)
      (r'.rule options known' media u) := by
  have hl := h.child? .selectorList
  rw [rule, rule]
  generalize t.child? .selectorList = l at hl
  generalize u.child? .selectorList = l' at hl
  cases hl with
  | none => exact .pure .none
  | some hl =>
    refine .bind (selectors_like hs options hknown hl.2) fun ss ss' hss => ?_
    have hmap := map_eq_of_forall₂ hss fun _ _ h => h
    cases hss with
    | nil => exact .pure .none
    | cons =>
      rw [if_neg (by simp), if_neg (by simp)]
      refine block_like hs (fun ds es hde => .pure (.some ?_)) (h.child? .declarationBlock)
      rw [Rule.unplaced, Rule.unplaced, hmap, map_eq_of_forall₂ hde fun _ _ h => h]

include hknown in
theorem rules_like {ts us : List Tree}
    (h : List.Forall₂ (likeness r r').TreeLike ts us) :
    Noted.Like (List.Forall₂ fun a b => a.unplaced = b.unplaced) (r.rules options known media ts)
      (r'.rules options known' media us) := by
  induction h with
  | nil => exact .pure .nil
  | cons ht _ ih =>
    rw [rules, rules, ← ht.kind?_eq]
    split
    · refine .bind (rule_like hs options hknown ht) fun found found' hfound =>
        .bind ih fun _ _ hmore => .pure (List.rel_append ?_ hmore)
      cases hfound with
      | none => exact .nil
      | some h => exact .cons h .nil
    · exact .bind (.report (invalidAtRule_like hs ht)) fun _ _ _ => ih
    · exact ih

omit hs in
theorem draftLike_rules {x y : Noted (List Rule)}
    (h : Noted.Like (List.Forall₂ fun a b => a.unplaced = b.unplaced) x y) :
    DraftLike { rules := x.result, notes := x.problems.map .problem }
      { rules := y.result, notes := y.problems.map .problem } where
  namespaces := rfl
  fontFaces := rfl
  rules := map_eq_of_forall₂ h.result fun _ _ h => h
  problems := by
    rw [Draft.problems, Draft.problems, problems_of_noted, problems_of_noted, h.problems]

include hknown in
/-- Alike statements add the same to a document. -/
theorem statement_like {t u : Tree} (h : (likeness r r').TreeLike t u) :
    DraftLike (r.statement options known t) (r'.statement options known' u) := by
  have hrules : Noted.Like _ (r.rules options known [] [t]) (r'.rules options known' [] [u]) :=
    rules_like hs options hknown (.cons h .nil)
  rw [statement, statement, ← h.kind?_eq]
  split
  · rename_i hk
    exact namespaceRule_like hs hknown ⟨hk, h⟩
  · have hf := fontFace_like hs h
    refine ⟨rfl, congrArg (fun f => [f]) hf.result, rfl, ?_⟩
    rw [Draft.problems, Draft.problems, problems_of_noted, problems_of_noted, hf.problems]
  · refine draftLike_rules (.bind (mediaQueries_like hs h) fun media media' hm => ?_)
    subst hm
    exact rules_like hs options hknown h.nodes
  · exact draftLike_rules hrules
  · exact draftLike_rules hrules
  · exact ⟨rfl, rfl, rfl, rfl⟩

include hknown in
theorem statements_like {ts us : List Tree}
    (h : List.Forall₂ (likeness r r').TreeLike ts us) :
    DraftLike (r.statements options known ts) (r'.statements options known' us) := by
  induction h generalizing known known' with
  | nil => exact ⟨rfl, rfl, rfl, rfl⟩
  | cons ht _ ih =>
    have hdraft := statement_like hs options hknown ht
    refine hdraft.append (ih ?_)
    rw [List.map_append, List.map_append, hknown, hdraft.namespaces]

end

end Reading

open Likeness in
theorem buildDocument_like (source : String) {ts us : List Token} {t u : Tree}
    (h : (respacing ts us).TreeLike t u) (options : Options) :
    (buildDocument source ts t options).document.unplaced =
        (buildDocument source us u options).document.unplaced ∧
      (buildDocument source ts t options).problems.map Problem.unplaced =
        (buildDocument source us u options).problems.map Problem.unplaced := by
  have hs : Reading.DraftLike (Reading.statements ⟨source, ts⟩ options [] t.nodes)
      (Reading.statements ⟨source, us⟩ options [] u.nodes) := by
    apply Reading.statements_like
    · rfl
    · rfl
    · exact h.nodes
  refine ⟨?_, hs.problems⟩
  show Document.mk .. = Document.mk ..
  exact congr (congr (congrArg (Document.mk source .nowhere) hs.namespaces) hs.fontFaces) hs.rules

/-- Blanks are interchangeable: respaced tokens have documents that say the same and the same problems,
    in the tree and in what is read from it. -/
theorem parseTokens_respaced (source : String) (options : Options) {ts us : List Token}
    (h : Respaced ts us) :
    (parseTokens source ts).problems.map Problem.unplaced =
        (parseTokens source us).problems.map Problem.unplaced ∧
      (buildDocument source ts (parseTokens source ts).tree options).document.unplaced =
        (buildDocument source us (parseTokens source us).tree options).document.unplaced ∧
      (buildDocument source ts (parseTokens source ts).tree options).problems.map Problem.unplaced =
        (buildDocument source us (parseTokens source us).tree options).problems.map
          Problem.unplaced := by
  obtain ⟨htree, hproblems⟩ := Likeness.parseTokens_like (h.settingLike source) h.inputLike
  refine ⟨map_eq_of_forall₂ hproblems fun p q hpq => ?_, buildDocument_like source htree options⟩
  rw [Problem.unplaced, Problem.unplaced, hpq.kind, hpq.source, hpq.params]

/-- Tokens of a rule whose blanks are where they mean something: in front of a compound, in the argument
    of a pseudo-class and between the terms of a value. -/
def blankedTokens (blanks : List Token) : List Token :=
  [⟨.ident "a", "a", .nowhere⟩] ++ (blanks ++ ([⟨.colon, ":", .nowhere⟩,
    ⟨.function "f", "f(", .nowhere⟩, ⟨.ident "b", "b", .nowhere⟩] ++ (blanks ++
    ([⟨.plus, "+", .nowhere⟩, ⟨.closing .paren, ")", .nowhere⟩, ⟨.opening .brace, "\x7b", .nowhere⟩,
      ⟨.ident "c", "c", .nowhere⟩, ⟨.colon, ":", .nowhere⟩, ⟨.ident "d", "d", .nowhere⟩] ++ (blanks ++
    [⟨.ident "e", "e", .nowhere⟩, ⟨.closing .brace, "\x7d", .nowhere⟩, ⟨.eof, "", .nowhere⟩])))))

theorem blankedTokens_respaced {b b' : List Token} (hb : b ≠ [] ∧ ∀ t ∈ b, t.kind = .whitespace)
    (hb' : b' ≠ [] ∧ ∀ t ∈ b', t.kind = .whitespace) :
    Respaced (blankedTokens b) (blankedTokens b') :=
  .append (.refl _) (.blanks hb hb' (.append (.refl _) (.blanks hb hb' (.append (.refl _)
    (.blanks hb hb' (.refl _))))))

/-- With one blank in each place and with two, the rule has the same compounds and the same value; only
    the argument is written otherwise. -/
theorem parseTokens_respaced_blankedTokens :
    let one := blankedTokens [⟨.whitespace, " ", .nowhere⟩]
    let two := blankedTokens [⟨.whitespace, " ", .nowhere⟩, ⟨.whitespace, "\t", .nowhere⟩]
    let building (ts : List Token) := buildDocument "" ts (parseTokens "" ts).tree .standard
    Respaced one two ∧ one ≠ two ∧ (building one).document.rules.length = 1 ∧
      (building one).document.rules.map Rule.selectors ≠
        (building two).document.rules.map Rule.selectors ∧
      (parseTokens "" one).problems.map Problem.unplaced =
        (parseTokens "" two).problems.map Problem.unplaced ∧
      (building one).document.unplaced = (building two).document.unplaced ∧
      (building one).problems.map Problem.unplaced =
        (building two).problems.map Problem.unplaced := by
  intro one two building
  have h : Respaced one two := blankedTokens_respaced (by decide) (by decide)
  have hne : one ≠ two := by decide
  have hrules : (building one).document.rules.length = 1 := by decide +kernel
  have hselectors : (building one).document.rules.map Rule.selectors ≠
      (building two).document.rules.map Rule.selectors := by decide +kernel
  exact ⟨h, hne, hrules, hselectors, parseTokens_respaced "" .standard h⟩

end Stylesheet
