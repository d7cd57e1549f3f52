import Mathlib.Data.List.Basic
import Stylesheet.Reading.Document

/-!
# What a tree is read from

A tree names tokens: its leaves, and the places of nodes that have no children. Reading looks at no
other token, so two lists that hold the same tokens at the named places give the same document
(`statement_agree`), however long they are.
-/

namespace Stylesheet

namespace Tree

mutual

/-- The tokens that a tree names. -/
def named : Tree → List Nat
  | .leaf index => [index]
  | .node _ place children => if children.isEmpty then [place] else namedAmong children

/-- The tokens that a row of trees names. -/
def namedAmong : List Tree → List Nat
  | [] => []
  | t :: ts => t.named ++ namedAmong ts

end

theorem namedAmong_eq (ts : List Tree) : namedAmong ts = ts.flatMap named := by
  induction ts with
  | nil => rfl
  | cons t ts ih => rw [namedAmong, ih, List.flatMap_cons]

theorem mem_namedAmong {ts : List Tree} {i : Nat} : i ∈ namedAmong ts ↔ ∃ t ∈ ts, i ∈ t.named := by
  rw [namedAmong_eq, List.mem_flatMap]

theorem namedAmong_subset (kind : NodeKind) (place : Nat) (children : List Tree) :
    namedAmong children ⊆ (Tree.node kind place children).named := by
  cases children with
  | nil => exact List.nil_subset _
  | cons t ts => exact List.Subset.refl _

theorem named_subset {t c : Tree} (h : c ∈ t.children) : c.named ⊆ t.named := by
  cases t with
  | leaf index => exact absurd h List.not_mem_nil
  | node kind place children =>
    intro i hi
    exact namedAmong_subset kind place children (mem_namedAmong.2 ⟨c, h, hi⟩)

theorem first_mem_named (t : Tree) : t.first ∈ t.named := by
  match t with
  | .leaf index => exact List.mem_cons_self
  | .node kind place [] => exact List.mem_cons_self
  | .node kind place (c :: children) =>
    rw [first]
    exact named_subset (t := .node kind place (c :: children)) List.mem_cons_self c.first_mem_named

mutual

theorem last_mem_named (t : Tree) : t.last ∈ t.named := by
  match t with
  | .leaf index => exact List.mem_cons_self
  | .node kind place [] => exact List.mem_cons_self
  | .node kind place (c :: children) =>
    have hn : (Tree.node kind place (c :: children)).named = c.named ++ namedAmong children := rfl
    rw [last, lastAmong, hn]
    rcases lastAmong_mem_named c.last children with e | h
    · rw [e]
      exact List.mem_append_left _ c.last_mem_named
    · exact List.mem_append_right _ h

theorem lastAmong_mem_named (otherwise : Nat) (ts : List Tree) :
    lastAmong otherwise ts = otherwise ∨ lastAmong otherwise ts ∈ namedAmong ts := by
  match ts with
  | [] => exact Or.inl rfl
  | t :: ts =>
    rw [lastAmong, namedAmong]
    rcases lastAmong_mem_named t.last ts with e | h
    · rw [e]
      exact Or.inr (List.mem_append_left _ t.last_mem_named)
    · exact Or.inr (List.mem_append_right _ h)

end

theorem tokens_subset (t : Tree) : t.tokens ⊆ t.named := by
  intro i hi
  obtain ⟨c, hc, e⟩ := List.mem_filterMap.1 hi
  cases c with
  | leaf index =>
    cases e
    exact named_subset hc List.mem_cons_self
  | node => contradiction

theorem child?_subset {t c : Tree} {kind : NodeKind} (h : t.child? kind = some c) :
    c.named ⊆ t.named :=
  named_subset (List.mem_of_find?_eq_some h)

theorem nodesOf_subset {t c : Tree} {kind : NodeKind} (h : c ∈ t.nodesOf kind) :
    c.named ⊆ t.named :=
  named_subset (List.mem_filter.1 h).1

theorem nodes_subset {t c : Tree} (h : c ∈ t.nodes) : c.named ⊆ t.named :=
  named_subset (List.mem_filter.1 h).1

end Tree

namespace Noted

variable {α β : Type}

theorem collect_congr {f g : α → Noted β} {l : List α} (h : ∀ a ∈ l, f a = g a) :
    collect f l = collect g l := by
  induction l with
  | nil => rfl
  | cons a l ih =>
    rw [collect, collect, h a List.mem_cons_self, ih fun b hb => h b (List.mem_cons_of_mem a hb)]

theorem collect?_congr {f g : α → Noted (Option β)} {l : List α} (h : ∀ a ∈ l, f a = g a) :
    collect? f l = collect? g l := by
  rw [collect?, collect?, collect_congr h]

end Noted

namespace Reading

/-- Two readings that report under one name and have the same tokens at some places. -/
structure AgreesOn (r r' : Reading) (places : List Nat) : Prop where
  source : r.source = r'.source
  tokens : ∀ i ∈ places, r.tokens[i]? = r'.tokens[i]?

section

variable {r r' : Reading}

theorem AgreesOn.mono {places others : List Nat} (h : r.AgreesOn r' places) (hs : others ⊆ places) :
    r.AgreesOn r' others :=
  ⟨h.source, fun i hi => h.tokens i (hs hi)⟩

theorem AgreesOn.cons {t : Tree} {ts : List Tree} (h : r.AgreesOn r' (Tree.namedAmong (t :: ts))) :
    r.AgreesOn r' t.named ∧ r.AgreesOn r' (Tree.namedAmong ts) := by
  rw [Tree.namedAmong] at h
  exact ⟨h.mono (List.subset_append_left _ _), h.mono (List.subset_append_right _ _)⟩

/-! ## Tokens and places -/

theorem problem_agree (h : r.source = r'.source) (kind : ProblemKind) (span : Span)
    (params : List (String × String)) : r.problem kind span params = r'.problem kind span params := by
  rw [problem, problem, h]

theorem kind?_agree {i : Nat} (h : r.tokens[i]? = r'.tokens[i]?) : r.kind? i = r'.kind? i := by
  rw [kind?, kind?, h]

theorem ident?_agree {i : Nat} (h : r.tokens[i]? = r'.tokens[i]?) : r.ident? i = r'.ident? i := by
  rw [ident?, ident?, kind?_agree h]

theorem text_agree {i : Nat} (h : r.tokens[i]? = r'.tokens[i]?) : r.text i = r'.text i := by
  rw [text, text, h]

variable {t : Tree} (h : r.AgreesOn r' t.named)

include h

theorem first_agree : r.tokens[t.first]? = r'.tokens[t.first]? := h.tokens _ t.first_mem_named

theorem spanOf_agree : r.spanOf t = r'.spanOf t := by
  rw [spanOf, spanOf, Tree.span, Tree.span, first_agree h, h.tokens _ t.last_mem_named]

theorem kind?_first_agree : r.kind? t.first = r'.kind? t.first := kind?_agree (first_agree h)

theorem kind?_tokens_agree {i : Nat} (hi : i ∈ t.tokens) : r.kind? i = r'.kind? i :=
  kind?_agree (h.tokens i (t.tokens_subset hi))

theorem ident?_tokens_agree {i : Nat} (hi : i ∈ t.tokens) : r.ident? i = r'.ident? i :=
  ident?_agree (h.tokens i (t.tokens_subset hi))

/-! ## Selectors -/

theorem prefixOf?_agree : r.prefixOf? t = r'.prefixOf? t := by
  rw [prefixOf?, prefixOf?, kind?_first_agree h]

theorem elementOf?_agree : r.elementOf? t = r'.elementOf? t := by
  rw [elementOf?, elementOf?, kind?_first_agree h]

theorem classOf?_agree : r.classOf? t = r'.classOf? t := by
  rw [classOf?, classOf?]
  cases e : t.tokens[1]? with
  | none => rfl
  | some i => rw [Option.bind_some, Option.bind_some, ident?_tokens_agree h (List.mem_of_getElem? e)]

theorem attributeOf?_agree : r.attributeOf? t = r'.attributeOf? t := by
  rw [attributeOf?, attributeOf?, List.filterMap_congr fun i hi => kind?_tokens_agree h hi]

theorem pseudoOfName?_agree (element : Bool) {indices : List Nat} (hs : indices ⊆ t.tokens) :
    r.pseudoOfName? element indices = r'.pseudoOfName? element indices := by
  cases indices with
  | nil => rfl
  | cons i rest =>
    have ha : r.pseudoArgument rest = r'.pseudoArgument rest := by
      have ht : rest.dropLast.map r.text = rest.dropLast.map r'.text := by
        refine List.map_congr_left fun j hj => text_agree (h.tokens j (t.tokens_subset ?_))
        exact hs (List.mem_cons_of_mem i ((List.dropLast_sublist rest).subset hj))
      rw [pseudoArgument, pseudoArgument, ht]
    rw [pseudoOfName?, pseudoOfName?, kind?_tokens_agree h (hs List.mem_cons_self), ha]

theorem pseudoOf?_agree : r.pseudoOf? t = r'.pseudoOf? t := by
  have hc : t.tokens[1]?.bind r.kind? = t.tokens[1]?.bind r'.kind? := by
    cases e : t.tokens[1]? with
    | none => rfl
    | some i =>
      rw [Option.bind_some, Option.bind_some, kind?_tokens_agree h (List.mem_of_getElem? e)]
  simp only [pseudoOf?, hc]
  exact pseudoOfName?_agree h _ ((List.drop_sublist _ _).subset)

theorem conditionOf?_agree : r.conditionOf? t = r'.conditionOf? t := by
  rw [conditionOf?, conditionOf?, idOf?, idOf?, kind?_first_agree h, classOf?_agree h,
    attributeOf?_agree h, pseudoOf?_agree h]

omit h in
theorem resolve_agree (hs : r.source = r'.source) (options : Options) (known : List Namespace)
    (nsPrefix : Option String) (hasElement : Bool) (span : Span) :
    r.resolve options known nsPrefix hasElement span =
      r'.resolve options known nsPrefix hasElement span := by
  unfold resolve
  simp only [problem_agree hs]

theorem compound_agree (options : Options) (known : List Namespace) :
    r.compound options known t = r'.compound options known t := by
  have hp : (t.child? .namespacePrefix).bind r.prefixOf? =
      (t.child? .namespacePrefix).bind r'.prefixOf? := by
    cases e : t.child? .namespacePrefix with
    | none => rfl
    | some c => exact prefixOf?_agree (h.mono (Tree.child?_subset e))
  have hn : (t.child? .elementName).bind r.elementOf? = (t.child? .elementName).bind r'.elementOf? := by
    cases e : t.child? .elementName with
    | none => rfl
    | some c => exact elementOf?_agree (h.mono (Tree.child?_subset e))
  have hs : r.spanOf ((t.child? .namespacePrefix).getD t) =
      r'.spanOf ((t.child? .namespacePrefix).getD t) := by
    cases e : t.child? .namespacePrefix with
    | none => exact spanOf_agree h
    | some c => exact spanOf_agree (h.mono (Tree.child?_subset e))
  have hc : t.nodes.filterMap r.conditionOf? = t.nodes.filterMap r'.conditionOf? :=
    List.filterMap_congr fun c hc => conditionOf?_agree (h.mono (Tree.nodes_subset hc))
  simp only [compound, hp, hn, hs, hc, resolve_agree h.source]

theorem selector_agree (options : Options) (known : List Namespace) :
    r.selector options known t = r'.selector options known t := by
  have hc : Noted.collect (r.compound options known) (t.nodesOf .simpleSelector) =
      Noted.collect (r'.compound options known) (t.nodesOf .simpleSelector) :=
    Noted.collect_congr fun _ hc => compound_agree (h.mono (Tree.nodesOf_subset hc)) options known
  have hk : (t.nodesOf .combinator).map r.combinator = (t.nodesOf .combinator).map r'.combinator := by
    refine List.map_congr_left fun _ hc => ?_
    rw [combinator, combinator, kind?_first_agree (h.mono (Tree.nodesOf_subset hc))]
  simp only [selector, hc, hk, spanOf_agree h]

theorem selectors_agree (options : Options) (known : List Namespace) :
    r.selectors options known t = r'.selectors options known t :=
  Noted.collect?_congr fun _ hc => selector_agree (h.mono (Tree.nodesOf_subset hc)) options known

/-! ## Values -/

omit h in
theorem literal_agree {i : Nat} (hs : r.source = r'.source) (hi : r.tokens[i]? = r'.tokens[i]?) :
    r.literal i = r'.literal i := by
  have hh (token : Token) (digits : String) :
      r.hashValue token digits = r'.hashValue token digits := by
    unfold hashValue
    simp only [problem_agree hs]
  unfold literal
  simp only [hi, hh]

omit h in
theorem functionName?_agree {i : Nat} (hi : r.tokens[i]? = r'.tokens[i]?) :
    r.functionName? i = r'.functionName? i := by
  rw [functionName?, functionName?, kind?_agree hi]

omit h in
theorem separator?_agree {i : Nat} (hi : r.tokens[i]? = r'.tokens[i]?) :
    r.separator? i = r'.separator? i := by
  rw [separator?, separator?, kind?_agree hi]

omit h in
mutual

theorem term_agree (t : Tree) (h : r.AgreesOn r' t.named) : r.term t = r'.term t := by
  have hf := first_agree h
  match t, h with
  | .leaf _, _ => rw [term, term] <;> simp
  | .node kind place children, h =>
    have hc := h.mono (Tree.namedAmong_subset kind place children)
    cases kind with
    | term =>
      rw [term, term]
      exact literal_agree h.source hf
    | functionCall =>
      rw [term, term, functionName?_agree hf, arguments_agree children hc]
    | namedArgument =>
      rw [term, term, ident?_agree hf, firstTerm_agree children hc]
    | _ => rw [term, term] <;> simp

theorem firstTerm_agree (ts : List Tree) (h : r.AgreesOn r' (Tree.namedAmong ts)) :
    r.firstTerm ts = r'.firstTerm ts := by
  match ts, h with
  | [], _ => rfl
  | .leaf _ :: rest, h =>
    rw [firstTerm, firstTerm]
    exact firstTerm_agree rest h.cons.2
  | .node kind place children :: _, h =>
    rw [firstTerm, firstTerm]
    exact term_agree _ h.cons.1

theorem arguments_agree (ts : List Tree) (h : r.AgreesOn r' (Tree.namedAmong ts)) :
    r.arguments ts = r'.arguments ts := by
  match ts, h with
  | [], _ => rfl
  | .leaf _ :: rest, h =>
    rw [arguments, arguments]
    · exact arguments_agree rest h.cons.2
    all_goals simp
  | .node kind place children :: rest, h =>
    have hc := h.cons.1.mono (Tree.namedAmong_subset kind place children)
    by_cases hk : kind = .value
    · subst hk
      rw [arguments, arguments, row_agree none children hc]
    · rw [arguments, arguments]
      · exact arguments_agree rest h.cons.2
      all_goals simp [hk]

theorem row_agree (pending : Option Separator) (ts : List Tree)
    (h : r.AgreesOn r' (Tree.namedAmong ts)) : r.row pending ts = r'.row pending ts := by
  match ts, h with
  | [], _ => rfl
  | .leaf index :: rest, h =>
    rw [row, row, separator?_agree (h.cons.1.tokens index List.mem_cons_self)]
    exact row_agree _ rest h.cons.2
  | .node kind place children :: rest, h =>
    rw [row, row, term_agree _ h.cons.1]
    simp only [fun p => row_agree p rest h.cons.2]

end

theorem value_agree : r.value t = r'.value t := by
  have hc : r.AgreesOn r' (Tree.namedAmong t.children) := by
    cases t with
    | leaf => exact h.mono (List.nil_subset _)
    | node kind place children => exact h.mono (Tree.namedAmong_subset kind place children)
  rw [value, value, row_agree none _ hc]

theorem findSome?_tokens_agree {α : Type} {f g : Nat → Option α}
    (hf : ∀ i, r.tokens[i]? = r'.tokens[i]? → f i = g i) :
    t.tokens.findSome? f = t.tokens.findSome? g := by
  rw [← List.head?_filterMap, ← List.head?_filterMap, List.filterMap_congr fun i hi =>
    hf i (h.tokens i (t.tokens_subset hi))]

/-! ## Declarations and queries -/

theorem declaration_agree : r.declaration t = r'.declaration t := by
  have hi : (t.tokens.any fun index => r.kind? index == some .important) =
      t.tokens.any fun index => r'.kind? index == some .important := by
    rw [Bool.eq_iff_iff, List.any_eq_true, List.any_eq_true]
    refine exists_congr fun i => and_congr_right fun hi => ?_
    rw [kind?_tokens_agree h hi]
  rw [declaration, declaration, ident?_agree (first_agree h)]
  cases r'.ident? t.first with
  | none => rfl
  | some name =>
    cases e : t.child? .value with
    | none => rfl
    | some v => simp only [value_agree (h.mono (Tree.child?_subset e)), hi, spanOf_agree h]

theorem declarations_agree : r.declarations t = r'.declarations t :=
  Noted.collect?_congr fun _ hc => declaration_agree (h.mono (Tree.nodesOf_subset hc))

theorem mediaFeature_agree : r.mediaFeature t = r'.mediaFeature t := by
  rw [mediaFeature, mediaFeature, findSome?_tokens_agree h fun i hi => ident?_agree hi]
  cases e : t.child? .value with
  | none => rfl
  | some v => simp only [value_agree (h.mono (Tree.child?_subset e))]

theorem mediaQuery_agree : r.mediaQuery t = r'.mediaQuery t := by
  have hw : t.tokens.filterMap r.ident? = t.tokens.filterMap r'.ident? :=
    List.filterMap_congr fun i hi => ident?_tokens_agree h hi
  have hf : Noted.collect? r.mediaFeature (t.nodesOf .mediaFeature) =
      Noted.collect? r'.mediaFeature (t.nodesOf .mediaFeature) :=
    Noted.collect?_congr fun _ hc => mediaFeature_agree (h.mono (Tree.nodesOf_subset hc))
  simp only [mediaQuery, hw, hf]

theorem mediaQueries_agree : r.mediaQueries t = r'.mediaQueries t := by
  rw [mediaQueries, mediaQueries]
  cases e : t.child? .mediaQueryList with
  | none => rfl
  | some list =>
    exact Noted.collect_congr fun _ hc =>
      mediaQuery_agree (h.mono (List.Subset.trans (Tree.nodesOf_subset hc) (Tree.child?_subset e)))

/-! ## Statements -/

theorem rule_agree (options : Options) (known : List Namespace) (media : List MediaQuery) :
    r.rule options known media t = r'.rule options known media t := by
  rw [rule, rule]
  cases e : t.child? .selectorList with
  | none => rfl
  | some list =>
    simp only [selectors_agree (h.mono (Tree.child?_subset e)), spanOf_agree h]
    cases e : t.child? .declarationBlock with
    | none => rfl
    | some block => simp only [declarations_agree (h.mono (Tree.child?_subset e))]

theorem invalidAtRule_agree : r.invalidAtRule t = r'.invalidAtRule t := by
  rw [invalidAtRule, invalidAtRule, kind?_first_agree h, spanOf_agree h, problem_agree h.source]

theorem namespaceRule_agree (known : List Namespace) :
    r.namespaceRule known t = r'.namespaceRule known t := by
  have hp : r.boundPrefix? t = r'.boundPrefix? t := by
    rw [boundPrefix?, boundPrefix?]
    cases e : t.child? .namespacePrefix with
    | none => rfl
    | some p =>
      rw [Option.bind_some]
      cases e' : p.tokens.head? with
      | none => rfl
      | some i =>
        exact ident?_tokens_agree (h.mono (Tree.child?_subset e)) (List.mem_of_head? e')
  have ha : t.tokens.findSome? r.address? = t.tokens.findSome? r'.address? := by
    apply findSome?_tokens_agree h
    intro i hi
    rw [address?, address?, kind?_agree hi]
  simp only [namespaceRule, hp, ha, spanOf_agree h, problem_agree h.source]

omit h in
theorem descriptors_agree (hs : r.source = r'.source) (kept ds : List Declaration) :
    r.descriptors kept ds = r'.descriptors kept ds := by
  induction ds generalizing kept with
  | nil => rfl
  | cons d ds ih => simp only [descriptors, ih, problem_agree hs]

theorem fontFace_agree : r.fontFace t = r'.fontFace t := by
  simp only [fontFace, descriptors_agree h.source, spanOf_agree h]
  cases e : t.child? .declarationBlock with
  | none => rfl
  | some block => simp only [declarations_agree (h.mono (Tree.child?_subset e))]

omit h in
theorem rules_agree (options : Options) (known : List Namespace) (media : List MediaQuery)
    (ts : List Tree) (h : ∀ t ∈ ts, r.AgreesOn r' t.named) :
    r.rules options known media ts = r'.rules options known media ts := by
  induction ts with
  | nil => rfl
  | cons t ts ih =>
    have ht := h t List.mem_cons_self
    have hts := ih fun u hu => h u (List.mem_cons_of_mem t hu)
    rw [rules, rules, rule_agree ht, invalidAtRule_agree ht, hts]

theorem mediaRule_agree (options : Options) (known : List Namespace) :
    r.mediaRule options known t = r'.mediaRule options known t := by
  have hr (media : List MediaQuery) := rules_agree options known media t.nodes
    fun _ hc => h.mono (Tree.nodes_subset hc)
  simp only [mediaRule, mediaQueries_agree h, hr]

/-- What a statement adds to a document depends on the tokens that it names. -/
theorem statement_agree (options : Options) (known : List Namespace) :
    r.statement options known t = r'.statement options known t := by
  have hr := rules_agree options known [] [t] fun u hu => List.mem_singleton.1 hu ▸ h
  simp only [statement, namespaceRule_agree h, fontFace_agree h, mediaRule_agree h, hr]

omit h in
theorem statements_agree (options : Options) (known : List Namespace) (ts : List Tree)
    (h : ∀ t ∈ ts, r.AgreesOn r' t.named) :
    r.statements options known ts = r'.statements options known ts := by
  induction ts generalizing known with
  | nil => rfl
  | cons t ts ih =>
    have ht := statement_agree (h t List.mem_cons_self) options known
    rw [statements, statements, ht, ih _ fun u hu => h u (List.mem_cons_of_mem t hu)]

end

end Reading

/-- A document depends on the tokens that its tree names. -/
theorem buildDocument_agree (source : String) {tokens tokens' : List Token} {tree : Tree}
    (h : ∀ i ∈ tree.named, tokens[i]? = tokens'[i]?) (options : Options) :
    buildDocument source tokens tree options = buildDocument source tokens' tree options := by
  have ha : Reading.AgreesOn ⟨source, tokens⟩ ⟨source, tokens'⟩ tree.named := ⟨rfl, h⟩
  have hs := Reading.statements_agree options [] tree.nodes fun _ hc =>
    ha.mono (Tree.nodes_subset hc)
  simp only [buildDocument, hs, Reading.spanOf_agree ha]

end Stylesheet
