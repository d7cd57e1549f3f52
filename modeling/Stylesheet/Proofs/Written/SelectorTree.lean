import Stylesheet.Proofs.Written.SelectorToken
import Stylesheet.Proofs.Written.Term
import Stylesheet.Reading.Selector

/-!
# The trees of written selectors

The tokens of a plain selector are accepted by the grammar up to where they end, and the tree that
comes of them is read as the selector, places and looked-up addresses aside. Each part is
followed by a token that does not go on with it: a condition by anything that begins none, a
compound by a blank or a comma (`EndsCompound`), a selector by a comma or a block (`EndsSelector`).
-/

namespace Stylesheet

/-- What is there for each of the items is kept. -/
theorem filterMap_of_map {α β γ : Type} {f : α → Option β} {g : γ → β} {l : List α} {m : List γ}
    (h : l.map f = m.map (fun c => some (g c))) : l.filterMap f = m.map g := by
  calc l.filterMap f = (l.map f).filterMap id := by rw [List.filterMap_map]; rfl
    _ = m.map g := by rw [h, List.filterMap_map, ← List.filterMap_eq_map]; rfl

namespace Reading

/-- A token of a kind in the list that trees are read against; a plain name stands as it is. -/
structure Has (r : Reading) (t : Placed) (k : TokenKind) : Prop where
  kind : t.kind = k
  held : r.tokens[t.index]? = some t.token
  spelled : ∀ name, k = .ident name → isPlainName name = true → t.token.text = name

/-- Tokens of some kinds, one after the other. -/
structure HasAll (r : Reading) (ts : Tokens) (ks : List TokenKind) : Prop where
  kinds : ts.map Placed.kind = ks
  held : r.Holds ts
  spelled : SpellsNames (ts.map Placed.token)

variable {r : Reading} {t : Placed} {ts : Tokens} {k : TokenKind} {ks js : List TokenKind}

namespace Has

theorem kind? (h : r.Has t k) : r.kind? t.index = some k := by
  rw [kind?_of_holds h.held, h.kind]

theorem ident? {name : String} (h : r.Has t (.ident name)) : r.ident? t.index = some name := by
  rw [Reading.ident?, h.kind?]

theorem text {name : String} (h : r.Has t (.ident name)) (hp : isPlainName name = true) :
    r.text t.index = name := by
  rw [Reading.text, h.held]
  exact h.spelled name rfl hp

end Has

namespace HasAll

theorem eq_nil (h : r.HasAll ts []) : ts = [] := List.map_eq_nil_iff.1 h.kinds

theorem cons (h : r.HasAll ts (k :: ks)) : ∃ t us, ts = t :: us ∧ r.Has t k ∧ r.HasAll us ks := by
  obtain ⟨t, us, rfl, hk, hks⟩ := List.map_eq_cons_iff.1 h.kinds
  refine ⟨t, us, rfl, ⟨hk, h.held.cons.1, fun name e hp => ?_⟩, hks, h.held.cons.2, fun u hu => ?_⟩
  · exact h.spelled t.token List.mem_cons_self name (hk.trans e) hp
  · exact h.spelled u (List.mem_cons_of_mem _ hu)

theorem singleton (h : r.HasAll ts [k]) : ∃ t, ts = [t] ∧ r.Has t k := by
  obtain ⟨t, us, rfl, ht, hus⟩ := h.cons
  exact ⟨t, by rw [hus.eq_nil], ht⟩

theorem append (h : r.HasAll ts (ks ++ js)) :
    ∃ us vs, ts = us ++ vs ∧ r.HasAll us ks ∧ r.HasAll vs js := by
  obtain ⟨us, vs, rfl, hks, hjs⟩ := List.map_eq_append_iff.1 h.kinds
  refine ⟨us, vs, rfl, ⟨hks, h.held.append.1, fun u hu => ?_⟩, ⟨hjs, h.held.append.2, fun u hu => ?_⟩⟩
  all_goals refine h.spelled u ?_; rw [List.map_append]
  · exact List.mem_append_left _ hu
  · exact List.mem_append_right _ hu

end HasAll

end Reading

theorem not_isWhiteSpace_of_isPlainChar {c : Char} (h : isPlainChar c = true) :
    isWhiteSpace c = false := by
  have hn : 0x2d ≤ c.toNat ∧ c.toNat ≤ 0x7a := by
    simp only [isPlainChar, Char.isAlphanum, Bool.or_eq_true, beq_iff_eq, isAlpha_iff,
      isDigit_iff] at h
    rcases h with ((h | h) | rfl) | rfl
    · omega
    · omega
    · decide
    · decide
  rw [← Bool.not_eq_true]
  simp only [isWhiteSpace, Bool.or_eq_true, Bool.and_eq_true, decide_eq_true_eq, beq_iff_eq]
  omega

/-- A plain name has no white space at its ends. -/
theorem trimmed_plain {s : String} (h : isPlainName s = true) : trimmed s.toList = s.toList := by
  have hall : ∀ c ∈ s.toList, isWhiteSpace c = false := fun c hc =>
    not_isWhiteSpace_of_isPlainChar (isPlainChar_of_mem h c hc)
  have keep (cs : List Char) (hcs : ∀ c ∈ cs, isWhiteSpace c = false) :
      cs.dropWhile isWhiteSpace = cs := by
    cases cs with
    | nil => rfl
    | cons c cs => rw [List.dropWhile_cons_of_neg (by simp [hcs c List.mem_cons_self])]
  rw [trimmed, keep _ hall, keep _ fun c hc => hall c (List.mem_reverse.1 hc), List.reverse_reverse]

namespace Grammar

open Production Reading

variable {r : Reading} {ts rest : Tokens}

theorem kind?_leaf (t : Placed) : t.leaf.kind? = none := rfl

/-! ## Conditions -/

/-- The argument of a pseudo-class and the parenthesis behind it. -/
theorem pseudoArgument_written (rest : Tokens) {a : String} (ha : a = "" ∨ isPlainName a = true)
    (h : r.HasAll ts ((if a = "" then [] else [.ident a]) ++ [.closing .paren])) :
    pseudoArgument 0 (ts ++ rest) = .accepted (ts.map Placed.leaf) rest ∧
      r.pseudoArgument (ts.map Placed.index) = a := by
  by_cases he : a = ""
  · rw [if_pos he, List.nil_append] at h
    obtain ⟨t, rfl, ht⟩ := h.singleton
    constructor
    · simp [pseudoArgument, ht.kind, TokenKind.opens?]
    · rw [he]
      rfl
  · rw [if_neg he] at h
    obtain ⟨t, us, rfl, ht, hus⟩ := HasAll.cons h
    obtain ⟨u, rfl, hu⟩ := hus.singleton
    constructor
    · simp [pseudoArgument, ht.kind, hu.kind, TokenKind.opens?, Outcome.map]
    · have hp := ha.resolve_left he
      have hj : String.join [a] = a := by simp [String.join]
      simp only [Reading.pseudoArgument, List.map_cons, List.map_nil, List.dropLast, ht.text hp, hj,
        trimmed_plain hp, String.ofList_toList]

theorem pseudoName_written (rest : Tokens) {name : String} {argument : Option String} (element : Bool)
    (ha : ∀ a ∈ argument, a = "" ∨ isPlainName a = true)
    (h : r.HasAll ts (Condition.nameKinds name argument)) :
    ∃ t us, ts = t :: us ∧ t.kind ≠ .colon ∧
      pseudoName (ts ++ rest) = .accepted (ts.map Placed.leaf) rest ∧
      r.pseudoOfName? element (ts.map Placed.index) = some (.pseudo name argument element) := by
  cases argument with
  | none =>
    obtain ⟨t, rfl, ht⟩ := HasAll.singleton h
    refine ⟨t, [], rfl, by simp [ht.kind], ?_, ?_⟩
    · simp [pseudoName, ht.kind]
    · simp [pseudoOfName?, ht.kind?]
  | some a =>
    obtain ⟨t, us, rfl, ht, hus⟩ := HasAll.cons h
    obtain ⟨hargument, htext⟩ := pseudoArgument_written rest (ha a rfl) hus
    refine ⟨t, us, rfl, by simp [ht.kind], ?_, ?_⟩
    · simp [pseudoName, ht.kind, hargument, Outcome.map]
    · simp [pseudoOfName?, ht.kind?, htext]

theorem pseudoSelector_written {name : String} {argument : Option String} {element : Bool}
    (ha : ∀ a ∈ argument, a = "" ∨ isPlainName a = true)
    (h : r.HasAll ts (Condition.kinds (.pseudo name argument element))) :
    ∃ tree, condition (ts ++ rest) = .accepted tree rest ∧
      r.conditionOf? tree = some (.pseudo name argument element) := by
  obtain ⟨cs, us, rfl, hcs, hus⟩ := HasAll.append h
  obtain ⟨t, vs, rfl, ht, hname, hread⟩ := pseudoName_written rest element ha hus
  have hindices (c : Placed) (more : List Placed) :
      (Tree.node .pseudoSelector c.index ((c :: more).map Placed.leaf)).tokens =
        (c :: more).map Placed.index := by
    simp [Tree.tokens, Tree.children, Placed.leaf, Tree.index?, List.filterMap_map, Function.comp_def]
  have hnone : (r.kind? t.index == some .colon) = false := by
    rw [kind?_of_holds hus.held.cons.1]
    simpa using ht
  cases element with
  | true =>
    obtain ⟨c, us, rfl, hc, hus⟩ := HasAll.cons hcs
    obtain ⟨d, rfl, hd⟩ := hus.singleton
    refine ⟨.node .pseudoSelector c.index ((c :: d :: t :: vs).map Placed.leaf), ?_, ?_⟩
    · simp only [List.cons_append, List.nil_append] at hname ⊢
      simp [condition, Tokens.kind?, hc.kind, hd.kind, pseudoSelector, take_cons, take?_cons, hname]
      rfl
    · simp only [conditionOf?, Tree.kind?, pseudoOf?, hindices]
      simpa [hd.kind?] using hread
  | false =>
    obtain ⟨c, rfl, hc⟩ := HasAll.singleton hcs
    refine ⟨.node .pseudoSelector c.index ((c :: t :: vs).map Placed.leaf), ?_, ?_⟩
    · simp only [List.cons_append, List.nil_append] at hname ⊢
      simp [condition, Tokens.kind?, hc.kind, ht, pseudoSelector, take_cons, take?_cons, hname]
      rfl
    · simp only [conditionOf?, Tree.kind?, pseudoOf?, hindices]
      simpa [hnone] using hread

theorem attributeSelector_written {name : String} {matcher : Option (Comparison × String)}
    (h : r.HasAll ts (Condition.kinds (.attribute name matcher))) :
    ∃ tree, condition (ts ++ rest) = .accepted tree rest ∧
      r.conditionOf? tree = some (.attribute name matcher) := by
  obtain ⟨o, us, rfl, ho, hus⟩ := HasAll.cons h
  obtain ⟨us, cs, rfl, hus, hcs⟩ := hus.append
  obtain ⟨n, ms, rfl, hn, hms⟩ := hus.cons
  obtain ⟨c, rfl, hc⟩ := hcs.singleton
  cases matcher with
  | none =>
    obtain rfl := hms.eq_nil
    refine ⟨.node .attributeSelector o.index [o.leaf, n.leaf, c.leaf], ?_, ?_⟩
    · simp [condition, Tokens.kind?, ho.kind, hn.kind, hc.kind, attributeSelector, attributeMatcher,
        take_cons, take?_cons, skipBlank_cons, TokenKind.isIdent, isComparison]
      rfl
    · simp [conditionOf?, Tree.kind?, attributeOf?, Tree.tokens, Tree.children, Tree.index?,
        Placed.leaf, ho.kind?, hn.kind?, hc.kind?, attributeOfKinds?]
  | some m =>
    obtain ⟨op, value⟩ := m
    obtain ⟨m, vs, rfl, hm, hvs⟩ := hms.cons
    obtain ⟨v, rfl, hv⟩ := hvs.singleton
    refine ⟨.node .attributeSelector o.index [o.leaf, n.leaf, m.leaf, v.leaf, c.leaf], ?_, ?_⟩
    · simp [condition, Tokens.kind?, ho.kind, hn.kind, hc.kind, hm.kind, hv.kind, attributeSelector,
        attributeMatcher, take_cons, take?_cons, skipBlank_cons, TokenKind.isIdent, isComparison]
      rfl
    · simp [conditionOf?, Tree.kind?, attributeOf?, Tree.tokens, Tree.children, Tree.index?,
        Placed.leaf, ho.kind?, hn.kind?, hc.kind?, hm.kind?, hv.kind?, attributeOfKinds?]

/-- A condition is accepted up to its end, and its tree is read as it. -/
theorem condition_written (rest : Tokens) {c : Condition} (hp : c.isPlain = true) (h : r.HasAll ts c.kinds) :
    ∃ tree, condition (ts ++ rest) = .accepted tree rest ∧ r.conditionOf? tree = some c := by
  match c, hp, h with
  | .hasClass name, _, h =>
    obtain ⟨d, us, rfl, hd, hus⟩ := HasAll.cons h
    obtain ⟨n, rfl, hn⟩ := hus.singleton
    refine ⟨.node .classSelector d.index [d.leaf, n.leaf], ?_, ?_⟩
    · simp [condition, Tokens.kind?, hd.kind, classSelector, take_cons, hn.kind, TokenKind.isIdent]
      rfl
    · simp [conditionOf?, Tree.kind?, classOf?, Tree.tokens, Tree.children, Tree.index?, Placed.leaf,
        hn.ident?]
  | .hasId name, _, h =>
    obtain ⟨i, rfl, hi⟩ := HasAll.singleton h
    refine ⟨single .idSelector i.leaf, ?_, ?_⟩
    · simp [condition, Tokens.kind?, hi.kind, idSelector, take_cons]
    · simp [conditionOf?, single, Tree.kind?, idOf?, Tree.first, Placed.leaf, hi.kind?]
  | .pseudo name argument element, hp, h =>
    simp only [Condition.isPlain, Bool.and_eq_true] at hp
    refine pseudoSelector_written (fun a ha => ?_) h
    cases ha
    simpa using hp.2
  | .attribute name matcher, _, h => exact attributeSelector_written h

/-- A condition begins with a token that begins one. -/
theorem exists_startsCondition (c : Condition) :
    ∃ k ks, c.kinds = k :: ks ∧ startsCondition k = true := by
  match c with
  | .hasClass _ | .hasId _ | .attribute _ _ => exact ⟨_, _, rfl, rfl⟩
  | .pseudo name argument true | .pseudo name argument false => exact ⟨_, _, rfl, rfl⟩

/-- Conditions, where the token behind them begins none. -/
theorem conditions_written {cs : List Condition} (hp : ∀ c ∈ cs, c.isPlain = true)
    (h : r.HasAll ts (cs.flatMap Condition.kinds)) (hr : rest.startsWith startsCondition = false) :
    ∃ trees, conditions (ts ++ rest) = .accepted trees rest ∧
      trees.map r.conditionOf? = cs.map some := by
  induction cs generalizing ts with
  | nil =>
    obtain rfl := HasAll.eq_nil h
    refine ⟨[], ?_, rfl⟩
    rw [conditions_eq, List.nil_append, hr]
    rfl
  | cons c cs ih =>
    obtain ⟨hc, hcs⟩ := List.forall_mem_cons.1 hp
    obtain ⟨us, vs, rfl, hus, hvs⟩ := HasAll.append h
    obtain ⟨trees, hmore, hreads⟩ := ih hcs hvs
    obtain ⟨tree, hfirst, hread⟩ := condition_written (vs ++ rest) hc hus
    have hstarts : Tokens.startsWith (us ++ (vs ++ rest)) startsCondition = true := by
      obtain ⟨k, ks, e, hk⟩ := exists_startsCondition c
      obtain ⟨u, us, rfl, hu, -⟩ := HasAll.cons (e ▸ hus)
      rw [← hu.kind] at hk
      exact hk
    refine ⟨tree :: trees, ?_, by rw [List.map_cons, hread, hreads]; rfl⟩
    rw [List.append_assoc, conditions_eq, if_pos hstarts, hfirst]
    dsimp only
    rw [hmore]
    rfl

/-! ## Compounds -/

/-- The tokens in front of which a compound ends. -/
def EndsCompound (rest : Tokens) : Prop :=
  ∃ t behind, rest = t :: behind ∧ (t.kind = .whitespace ∨ t.kind = .comma)

theorem EndsCompound.startsWith {p : TokenKind → Bool} (h : EndsCompound rest)
    (hw : p .whitespace = false) (hc : p .comma = false) : rest.startsWith p = false := by
  obtain ⟨t, behind, rfl, e | e⟩ := h
  · rw [Tokens.startsWith, e, hw]
  · rw [Tokens.startsWith, e, hc]

/-- Behind a compound's prefix and element stand its conditions. -/
theorem startsWith_conditions {p : TokenKind → Bool} {cs : List Condition}
    (h : r.HasAll ts (cs.flatMap Condition.kinds)) (hr : EndsCompound rest)
    (hw : p .whitespace = false) (hc : p .comma = false)
    (hp : ∀ k, startsCondition k = true → p k = false) :
    Tokens.startsWith (ts ++ rest) p = false := by
  cases cs with
  | nil =>
    obtain rfl := HasAll.eq_nil h
    exact hr.startsWith hw hc
  | cons c cs =>
    obtain ⟨k, ks, e, hk⟩ := exists_startsCondition c
    rw [List.flatMap_cons, e, List.cons_append] at h
    obtain ⟨t, us, rfl, ht, -⟩ := HasAll.cons h
    show p t.kind = false
    rw [ht.kind]
    exact hp k hk

/-- A prefix with its bar, whatever follows. -/
theorem namespacePrefix?_written (rest : Tokens) {p : String}
    (h : r.HasAll ts (Compound.prefixKinds (some p))) :
    ∃ tree, namespacePrefix? (ts ++ rest) = .accepted (some tree) rest ∧
      tree.kind? = some .namespacePrefix ∧ r.prefixOf? tree = some p := by
  have named {t u : Placed} (ht : isNameOrAny t.kind = true) (hb : t.kind ≠ .bar)
      (hu : u.kind = .bar) : namespacePrefix? (t :: u :: rest) =
        .accepted (some (.node .namespacePrefix t.index [t.leaf, u.leaf])) rest := by
    simp [namespacePrefix?, ht, hb, hu]
  rw [Compound.prefixKinds] at h
  by_cases hany : p = "*"
  · rw [if_pos hany] at h
    obtain ⟨t, us, rfl, ht, hus⟩ := HasAll.cons h
    obtain ⟨u, rfl, hu⟩ := hus.singleton
    refine ⟨_, named (by rw [ht.kind]; rfl) (by simp [ht.kind]) hu.kind, rfl, ?_⟩
    simp [prefixOf?, Tree.first, Placed.leaf, ht.kind?, hany, anyNamespace]
  · by_cases hno : p = ""
    · rw [if_neg hany, if_pos hno] at h
      obtain ⟨t, rfl, ht⟩ := HasAll.singleton h
      refine ⟨single .namespacePrefix t.leaf, ?_, rfl, ?_⟩
      · cases rest <;> simp [namespacePrefix?, ht.kind]
      · simp [prefixOf?, single, Tree.first, Placed.leaf, ht.kind?, hno, noNamespace]
    · rw [if_neg hany, if_neg hno] at h
      obtain ⟨t, us, rfl, ht, hus⟩ := HasAll.cons h
      obtain ⟨u, rfl, hu⟩ := hus.singleton
      refine ⟨_, named (by rw [ht.kind]; rfl) (by simp [ht.kind]) hu.kind, rfl, ?_⟩
      simp [prefixOf?, Tree.first, Placed.leaf, ht.kind?]

/-- Where no bar stands in front and none behind a name, there is no prefix. -/
theorem namespacePrefix?_none {s : Tokens} (h : s.startsWith (· == .bar) = false)
    (hn : s.startsWith isNameOrAny = true → Tokens.startsWith s.tail (· == .bar) = false) :
    namespacePrefix? s = .accepted none s := by
  match s, h, hn with
  | [], _, _ => rfl
  | [t], h, _ =>
    have h : (t.kind == .bar) = false := h
    simp [namespacePrefix?, h]
  | t :: u :: rest, h, hn =>
    have h : (t.kind == .bar) = false := h
    have hn : isNameOrAny t.kind = true → (u.kind == .bar) = false := hn
    have hno : (isNameOrAny t.kind && u.kind == .bar) = false := by
      cases ht : isNameOrAny t.kind with
      | false => rfl
      | true => rw [hn ht]; rfl
    simp [namespacePrefix?, h, hno]

theorem elementName?_written (rest : Tokens) {e : ElementName} (hasPrefix : Bool)
    (h : r.HasAll ts (Compound.elementKinds (some e))) :
    ∃ tree, elementName? hasPrefix (ts ++ rest) = .accepted (some tree) rest ∧
      tree.kind? = some .elementName ∧ r.elementOf? tree = some e := by
  cases e with
  | any =>
    obtain ⟨t, rfl, ht⟩ := HasAll.singleton h
    refine ⟨single .elementName t.leaf, ?_, rfl, ?_⟩
    · simp [elementName?, take?_cons, isNameOrAny, ht.kind]
    · simp [elementOf?, single, Tree.first, Placed.leaf, ht.kind?]
  | type name =>
    obtain ⟨t, rfl, ht⟩ := HasAll.singleton h
    refine ⟨single .elementName t.leaf, ?_, rfl, ?_⟩
    · simp [elementName?, take?_cons, isNameOrAny, ht.kind, TokenKind.isIdent]
    · simp [elementOf?, single, Tree.first, Placed.leaf, ht.kind?]

theorem elementName?_none {s : Tokens} (h : s.startsWith isNameOrAny = false) :
    elementName? false s = .accepted none s := by
  cases s with
  | nil => rfl
  | cons t s =>
    have h : isNameOrAny t.kind = false := h
    simp [elementName?, take?_cons, h]

theorem kind?_of_conditionOf? {t : Tree} {c : Condition} (h : r.conditionOf? t = some c) :
    t.isNode = true ∧ t.kind? ≠ some .namespacePrefix ∧ t.kind? ≠ some .elementName := by
  cases t with
  | leaf => contradiction
  | node kind place children =>
    refine ⟨rfl, ?_, ?_⟩ <;>
    · intro e
      rw [conditionOf?, e] at h
      contradiction

/-- What is read of the parts of a compound is read of the compound. -/
theorem compound_bare {c : Compound} {p e : Option Tree} {cs : List Tree}
    (hpk : ∀ t ∈ p, t.kind? = some .namespacePrefix) (hp : p.bind r.prefixOf? = c.nsPrefix)
    (hek : ∀ t ∈ e, t.kind? = some .elementName) (he : e.bind r.elementOf? = c.element)
    (hcs : cs.map r.conditionOf? = c.conditions.map some) (place : Nat) (options : Options)
    (known : List Namespace) :
    (r.compound options known
      (.node .simpleSelector place (p.toList ++ e.toList ++ cs))).result.bare = c.bare := by
  have hkinds : ∀ t ∈ cs, t.isNode = true ∧ t.kind? ≠ some .namespacePrefix ∧
      t.kind? ≠ some .elementName := by
    intro t ht
    have hm : r.conditionOf? t ∈ c.conditions.map some := hcs ▸ List.mem_map_of_mem ht
    obtain ⟨k, -, hk⟩ := List.mem_map.1 hm
    exact kind?_of_conditionOf? hk.symm
  have noPrefix : cs.find? (·.kind? == some .namespacePrefix) = none :=
    List.find?_eq_none.2 fun t ht => by simpa using (hkinds t ht).2.1
  have noElement : cs.find? (·.kind? == some .elementName) = none :=
    List.find?_eq_none.2 fun t ht => by simpa using (hkinds t ht).2.2
  generalize ht : Tree.node .simpleSelector place (p.toList ++ e.toList ++ cs) = tree
  have hprefix : tree.child? .namespacePrefix = p := by
    rw [← ht, Tree.child?, Tree.children]
    cases p <;> cases e <;> simp_all
  have helement : tree.child? .elementName = e := by
    rw [← ht, Tree.child?, Tree.children]
    cases p <;> cases e <;> simp_all
  have hconditions : tree.nodes.filterMap r.conditionOf? = c.conditions := by
    have part {t : Tree} {kind : NodeKind} (h : t.kind? = some kind)
        (hk : kind = .namespacePrefix ∨ kind = .elementName) :
        t.isNode = true ∧ r.conditionOf? t = none := by
      cases t with
      | leaf => contradiction
      | node => rcases hk with rfl | rfl <;> exact ⟨rfl, by rw [conditionOf?, h]⟩
    have hp (t : Tree) (ht : t ∈ p) := part (hpk t ht) (Or.inl rfl)
    have he (t : Tree) (ht : t ∈ e) := part (hek t ht) (Or.inr rfl)
    have hnodes : cs.filter Tree.isNode = cs := List.filter_eq_self.2 fun t ht => (hkinds t ht).1
    rw [← ht, Tree.nodes, Tree.children, List.filter_append, hnodes, List.filterMap_append,
      filterMap_of_map (g := id) hcs, List.map_id]
    cases p <;> cases e <;> simp_all
  rw [Reading.compound, hprefix, helement, hp, he, hconditions]
  rfl

/-- The prefix of a compound, if it has one. -/
theorem namespacePrefix?_part {ps es s : Tokens} {p : Option String} {e : Option ElementName}
    (hps : r.HasAll ps (Compound.prefixKinds p)) (hes : r.HasAll es (Compound.elementKinds e))
    (hb : s.startsWith (· == .bar) = false) (hn : s.startsWith isNameOrAny = false) :
    ∃ q, namespacePrefix? (ps ++ (es ++ s)) = .accepted q (es ++ s) ∧ q.isSome = p.isSome ∧
      (∀ t ∈ q, t.kind? = some .namespacePrefix) ∧ q.bind r.prefixOf? = p := by
  cases p with
  | some p =>
    obtain ⟨tree, ha, hk, hread⟩ := namespacePrefix?_written (es ++ s) hps
    exact ⟨some tree, ha, rfl, fun t ht => by cases ht; exact hk, hread⟩
  | none =>
    obtain rfl := hps.eq_nil
    refine ⟨none, ?_, rfl, nofun, rfl⟩
    cases e with
    | none =>
      obtain rfl := hes.eq_nil
      exact namespacePrefix?_none hb fun h => absurd (hn.symm.trans h) Bool.false_ne_true
    | some e =>
      obtain ⟨t, rfl, ht⟩ : ∃ t, es = [t] ∧ isNameOrAny t.kind = true := by
        cases e <;>
        · obtain ⟨t, rfl, ht⟩ := HasAll.singleton hes
          exact ⟨t, rfl, by rw [ht.kind]; rfl⟩
      refine namespacePrefix?_none ?_ fun _ => hb
      show (t.kind == .bar) = false
      cases hk : t.kind <;> rw [hk] at ht <;> first | rfl | contradiction

/-- The element of a compound, if it names one. -/
theorem elementName?_part {es s : Tokens} {e : Option ElementName} {hasPrefix : Bool}
    (hes : r.HasAll es (Compound.elementKinds e)) (hn : s.startsWith isNameOrAny = false)
    (hp : hasPrefix = true → e.isSome = true) :
    ∃ q, elementName? hasPrefix (es ++ s) = .accepted q s ∧
      (∀ t ∈ q, t.kind? = some .elementName) ∧ q.bind r.elementOf? = e := by
  cases e with
  | some e =>
    obtain ⟨tree, ha, hk, hread⟩ := elementName?_written s hasPrefix hes
    exact ⟨some tree, ha, fun t ht => by cases ht; exact hk, hread⟩
  | none =>
    obtain rfl := hes.eq_nil
    have hno : hasPrefix = false := Bool.eq_false_iff.2 fun h => Bool.false_ne_true (hp h)
    exact ⟨none, by rw [hno]; exact elementName?_none hn, nofun, rfl⟩

/-- A compound is accepted up to its end, and its tree is read as it. -/
theorem compound_written {c : Compound} (hp : c.isPlain = true) (hs : c.IsShaped)
    (h : r.HasAll ts c.kinds) (hr : EndsCompound rest) :
    ∃ tree, compound (ts ++ rest) = .accepted tree rest ∧ tree.kind? = some .simpleSelector ∧
      ∀ options known, (r.compound options known tree).result.bare = c.bare := by
  simp only [Compound.isPlain, Bool.and_eq_true] at hp
  obtain ⟨ps, us, rfl, hps, hus⟩ := HasAll.append h
  obtain ⟨es, ks, rfl, hes, hks⟩ := hus.append
  have hname : Tokens.startsWith (ks ++ rest) isNameOrAny = false :=
    startsWith_conditions hks hr rfl rfl fun k hk => by cases k <;> first | rfl | contradiction
  have hbar : Tokens.startsWith (ks ++ rest) (· == .bar) = false :=
    startsWith_conditions hks hr rfl rfl fun k hk => by cases k <;> first | rfl | contradiction
  obtain ⟨p, hprefix, hsome, hpk, hpread⟩ := namespacePrefix?_part hps hes hbar hname
  obtain ⟨e, helement, hek, heread⟩ := elementName?_part hes hname hs.element
  obtain ⟨cs, hconditions, hcs⟩ := conditions_written (List.all_eq_true.1 hp.2) hks
    (hr.startsWith (p := startsCondition) rfl rfl)
  have hne : p.toList ++ e.toList ++ cs ≠ [] := by
    intro hnil
    simp only [List.append_eq_nil_iff, Option.toList_eq_nil_iff] at hnil
    obtain ⟨⟨-, rfl⟩, rfl⟩ := hnil
    exact hs.filled heread.symm (List.map_eq_nil_iff.1 hcs.symm)
  obtain ⟨part, parts, hparts⟩ := List.exists_cons_of_ne_nil hne
  refine ⟨.node .simpleSelector part.first (part :: parts), ?_, rfl, fun options known => ?_⟩
  · simp only [List.append_assoc, compound, bind_apply, hprefix, hsome, helement, hconditions]
    rw [← List.append_assoc, hparts]
    rfl
  · rw [← hparts]
    exact compound_bare hpk hpread hek heread hcs _ options known

/-! ## Selectors -/

/-- The tokens in front of which a selector ends: a comma, or a blank and a block. -/
def EndsSelector (rest : Tokens) : Prop :=
  ∃ t behind, Tokens.skipBlank rest = t :: behind ∧ (t.kind = .comma ∨ t.kind = .opening .brace) ∧
    EndsCompound rest

/-- No combinator is in front of what ends a selector. -/
theorem EndsSelector.selectorTail (h : EndsSelector rest) :
    selectorTail rest = .accepted [] (Tokens.skipBlank rest) := by
  obtain ⟨t, behind, e, ht, -⟩ := h
  have hk : isCombinator t.kind = false ∧ startsCompound t.kind = false := by
    rcases ht with ht | ht <;> rw [ht] <;> exact ⟨rfl, rfl⟩
  have hnone : combinator? rest = .accepted none (Tokens.skipBlank rest) := by
    simp [combinator?, e, hk]
  rw [selectorTail_eq, hnone]

theorem startsCompound_ne {k : TokenKind} (h : startsCompound k = true) :
    k ≠ .whitespace ∧ isCombinator k = false := by
  constructor
  · rintro rfl
    contradiction
  · cases k <;> first | rfl | contradiction

/-- A compound begins with a token that begins one. -/
theorem exists_startsCompound {c : Compound} (hs : c.IsShaped) (h : r.HasAll ts c.kinds) :
    ∃ t us, ts = t :: us ∧ startsCompound t.kind = true := by
  obtain ⟨k, ks, e, hk⟩ : ∃ k ks, c.kinds = k :: ks ∧ startsCompound k = true := by
    rw [Compound.kinds]
    cases c.nsPrefix with
    | some p =>
      rw [Compound.prefixKinds]
      split
      · exact ⟨_, _, rfl, rfl⟩
      · split <;> exact ⟨_, _, rfl, rfl⟩
    | none =>
      cases he : c.element with
      | some element => cases element <;> exact ⟨_, _, rfl, rfl⟩
      | none =>
        obtain ⟨d, ds, e⟩ := List.exists_cons_of_ne_nil (hs.filled he)
        obtain ⟨k, ks, ek, hk⟩ := exists_startsCondition d
        refine ⟨k, ks ++ ds.flatMap Condition.kinds, by rw [e, List.flatMap_cons, ek]; rfl, ?_⟩
        unfold startsCondition at hk
        split at hk <;> first | rfl | contradiction
  rw [e] at h
  obtain ⟨t, us, rfl, ht, -⟩ := h.cons
  exact ⟨t, us, rfl, by rw [ht.kind]; exact hk⟩

/-- A combinator in front of a compound. -/
theorem combinator?_written (k : Combinator) {s : Tokens} {u : Placed} {us : Tokens}
    (hs : s = u :: us) (hu : startsCompound u.kind = true) (h : r.HasAll ts k.kinds) :
    ∃ tree, combinator? (ts ++ s) = .accepted (some tree) s ∧ tree.kind? = some .combinator ∧
      r.combinator tree = k := by
  obtain ⟨hw, hc⟩ := startsCompound_ne hu
  subst hs
  have mark {m : TokenKind} (hm : isCombinator m = true) (hmw : m ≠ .whitespace)
      (h : r.HasAll ts [.whitespace, m, .whitespace]) :
      ∃ t : Placed,
        combinator? (ts ++ u :: us) = .accepted (some (single .combinator t.leaf)) (u :: us) ∧
        r.kind? t.index = some m := by
    obtain ⟨a, ts, rfl, ha, hts⟩ := h.cons
    obtain ⟨t, ts, rfl, ht, hts⟩ := hts.cons
    obtain ⟨b, rfl, hb⟩ := hts.singleton
    refine ⟨t, ?_, ht.kind?⟩
    have front : Tokens.skipBlank (a :: t :: b :: u :: us) = t :: b :: u :: us := by
      rw [skipBlank_blank ha.kind, skipBlank_cons (by rw [ht.kind]; exact hmw)]
    have behind : Tokens.skipBlank (b :: u :: us) = u :: us := by
      rw [skipBlank_blank hb.kind, skipBlank_cons hw]
    simp only [List.cons_append, List.nil_append, combinator?, front, behind, ht.kind, hm, ↓reduceIte]
  cases k with
  | descendant =>
    obtain ⟨b, rfl, hb⟩ := HasAll.singleton h
    have front : Tokens.skipBlank (b :: u :: us) = u :: us := by
      rw [skipBlank_blank hb.kind, skipBlank_cons hw]
    have hblank : Tokens.isBlank b = true := by
      rw [Tokens.isBlank, Token.isWhitespace, beq_iff_eq]
      exact hb.kind
    refine ⟨single .combinator b.leaf, ?_, rfl, ?_⟩
    · simp [combinator?, front, hc, hu, hblank]
    · simp [combinator, single, Tree.first, Placed.leaf, hb.kind?]
  | child =>
    obtain ⟨t, ha, ht⟩ := mark (m := .greater) rfl (by decide) h
    exact ⟨_, ha, rfl, by simp [combinator, single, Tree.first, Placed.leaf, ht]⟩
  | adjacent =>
    obtain ⟨t, ha, ht⟩ := mark (m := .plus) rfl (by decide) h
    exact ⟨_, ha, rfl, by simp [combinator, single, Tree.first, Placed.leaf, ht]⟩
  | general =>
    obtain ⟨t, ha, ht⟩ := mark (m := .tilde) rfl (by decide) h
    exact ⟨_, ha, rfl, by simp [combinator, single, Tree.first, Placed.leaf, ht]⟩

/-- In front of a combinator, a compound ends. -/
theorem EndsCompound.of_links {links : List (Combinator × Compound)}
    (h : r.HasAll ts (links.flatMap Selector.linkKinds)) (hr : EndsCompound rest) :
    EndsCompound (ts ++ rest) := by
  cases links with
  | nil =>
    obtain rfl := HasAll.eq_nil h
    exact hr
  | cons p links =>
    obtain ⟨k, c⟩ := p
    obtain ⟨ks, e⟩ : ∃ ks, k.kinds = .whitespace :: ks := by cases k <;> exact ⟨_, rfl⟩
    rw [List.flatMap_cons, Selector.linkKinds, e, List.cons_append, List.cons_append] at h
    obtain ⟨t, us, rfl, ht, -⟩ := HasAll.cons h
    exact ⟨t, us ++ rest, rfl, Or.inl ht.kind⟩

/-- The compounds behind the first one, each with its combinator. -/
theorem selectorTail_written {links : List (Combinator × Compound)}
    (hp : ∀ p ∈ links, p.2.isPlain = true ∧ p.2.IsShaped)
    (h : r.HasAll ts (links.flatMap Selector.linkKinds)) (hr : EndsSelector rest) :
    ∃ trees, selectorTail (ts ++ rest) = .accepted trees (Tokens.skipBlank rest) ∧
      (trees.filter (·.kind? == some .combinator)).map r.combinator = links.map Prod.fst ∧
      ∀ options known, (trees.filter (·.kind? == some .simpleSelector)).map
        (fun t => (r.compound options known t).result.bare) = links.map fun p => p.2.bare := by
  induction links generalizing ts with
  | nil =>
    obtain rfl := HasAll.eq_nil h
    exact ⟨[], hr.selectorTail, rfl, fun _ _ => rfl⟩
  | cons p links ih =>
    obtain ⟨⟨hplain, hshaped⟩, hlinks⟩ := List.forall_mem_cons.1 hp
    rw [List.flatMap_cons, Selector.linkKinds] at h
    obtain ⟨us, vs, rfl, hus, hvs⟩ := h.append
    obtain ⟨ks, cs, rfl, hks, hcs⟩ := hus.append
    obtain ⟨trees, hmore, hcombinators, hcompounds⟩ := ih hlinks hvs
    have hends : EndsCompound (vs ++ rest) := .of_links hvs hr.choose_spec.choose_spec.2.2
    obtain ⟨tree, hcompound, hkind, hread⟩ := compound_written hplain hshaped hcs hends
    obtain ⟨u, us, rfl, hu⟩ := exists_startsCompound hshaped hcs
    obtain ⟨mark, hcombinator, hmk, hmark⟩ := combinator?_written p.1 (s := u :: us ++ (vs ++ rest))
      rfl hu hks
    refine ⟨mark :: tree :: trees, ?_, ?_, fun options known => ?_⟩
    · rw [List.append_assoc, List.append_assoc, selectorTail_eq, hcombinator]
      dsimp only
      rw [hcompound]
      dsimp only
      rw [hmore]
      rfl
    · simp [hmk, hkind, hmark, hcombinators]
    · simp [hmk, hkind, hread, hcompounds]

/-- A selector is accepted up to its end, and its tree is read as it. -/
theorem selector_written {s : Selector} (hp : s.isPlain = true) (hs : s.IsShaped)
    (h : r.HasAll ts s.kinds) (hr : EndsSelector rest) :
    ∃ tree, selector (ts ++ rest) = .accepted tree (Tokens.skipBlank rest) ∧
      tree.kind? = some .selector ∧
      ∀ options known, (r.selector options known tree).result.map Selector.bare = some s.bare := by
  obtain ⟨c, hc, hcombinators, -⟩ := Selector.exists_first hs
  have hplain : ∀ d ∈ s.compounds, d.isPlain = true ∧ d.IsShaped := fun d hd =>
    ⟨List.all_eq_true.1 hp d hd, hs.compounds d hd⟩
  rw [hc] at hplain
  obtain ⟨hfirst, hlinks⟩ := List.forall_mem_cons.1 hplain
  rw [Selector.kinds, hc] at h
  obtain ⟨us, vs, rfl, hus, hvs⟩ := h.append
  obtain ⟨trees, htail, hks, hcs⟩ := selectorTail_written
    (fun p hp => hlinks _ (List.mem_map_of_mem hp)) hvs hr
  obtain ⟨tree, hcompound, hkind, hread⟩ := compound_written hfirst.1 hfirst.2 hus
    (.of_links hvs hr.choose_spec.choose_spec.2.2)
  refine ⟨.node .selector tree.first (tree :: trees), ?_, rfl, fun options known => ?_⟩
  · simp only [List.append_assoc, selector, bind_apply, hcompound, htail, pure_apply]
  · generalize htree : Tree.node .selector tree.first (tree :: trees) = node
    have hparts : node.nodesOf .simpleSelector =
        tree :: trees.filter (·.kind? == some .simpleSelector) := by
      rw [← htree, Tree.nodesOf, Tree.children, List.filter_cons, if_pos (by rw [hkind]; rfl)]
    have hmarks : node.nodesOf .combinator = trees.filter (·.kind? == some .combinator) := by
      rw [← htree, Tree.nodesOf, Tree.children, List.filter_cons, if_neg (by rw [hkind]; decide)]
    have hbare : s.compounds.map Compound.bare = c.bare :: s.links.map fun p => p.2.bare := by
      rw [hc, List.map_cons, List.map_map]
      rfl
    rw [Reading.selector, Noted.bind_result, Noted.collect_result, hparts, hmarks, hks, ← hcombinators]
    simp only [List.map_cons, List.isEmpty_cons, Bool.false_eq_true, ↓reduceIte, Noted.pure_result,
      Option.map_some, Selector.bare, hread, List.map_map, hbare, ← hcs options known,
      Function.comp_def]

theorem exists_startsSelector {s : Selector} (hs : s.IsShaped) (h : r.HasAll ts s.kinds) :
    ∃ t us, ts = t :: us ∧ startsCompound t.kind = true := by
  obtain ⟨c, hc, -⟩ := Selector.exists_first hs
  rw [Selector.kinds, hc] at h
  obtain ⟨us, vs, rfl, hus, -⟩ := h.append
  have hm : c ∈ s.compounds := hc ▸ List.mem_cons_self
  obtain ⟨t, us, rfl, ht⟩ := exists_startsCompound (hs.compounds c hm) hus
  exact ⟨t, us ++ vs, rfl, ht⟩

/-- The tokens in front of a block: a blank, and the brace that opens it. -/
def EndsPrelude (brace : Placed) (behind rest : Tokens) : Prop :=
  ∃ b, rest = b :: brace :: behind ∧ b.kind = .whitespace ∧ brace.kind = .opening .brace

theorem EndsPrelude.skipBlank {brace : Placed} {behind : Tokens} (h : EndsPrelude brace behind rest) :
    Tokens.skipBlank rest = brace :: behind := by
  obtain ⟨b, rfl, hb, hbrace⟩ := h
  rw [skipBlank_blank hb, skipBlank_cons (by simp [hbrace])]

/-- The tokens of further items, each behind a comma. -/
def furtherKinds (items : List (List TokenKind)) : List TokenKind :=
  items.flatMap fun ks => commaKinds ++ ks

/-- In front of a comma or of a block, a selector ends. -/
theorem EndsSelector.of_further {items : List (List TokenKind)} {brace : Placed} {behind : Tokens}
    (h : r.HasAll ts (furtherKinds items)) (hr : EndsPrelude brace behind rest) :
    EndsSelector (ts ++ rest) := by
  cases items with
  | nil =>
    obtain rfl := HasAll.eq_nil h
    obtain ⟨b, rfl, hb, hbrace⟩ := hr
    exact ⟨brace, behind, by rw [List.nil_append, skipBlank_blank hb, skipBlank_cons (by simp [hbrace])],
      Or.inr hbrace, b, _, rfl, Or.inl hb⟩
  | cons ks items =>
    rw [furtherKinds, List.flatMap_cons, commaKinds, List.cons_append] at h
    obtain ⟨t, us, rfl, ht, -⟩ := HasAll.cons h
    exact ⟨t, us ++ rest, skipBlank_cons (by simp [ht.kind]) _, Or.inl ht.kind, t, us ++ rest, rfl,
      Or.inr ht.kind⟩

theorem selectorListTail_written {ss : List Selector}
    (hp : ∀ s ∈ ss, s.isPlain = true ∧ s.IsShaped)
    (h : r.HasAll ts (furtherKinds (ss.map Selector.kinds))) {brace : Placed} {behind : Tokens}
    (hr : EndsPrelude brace behind rest) :
    ∃ trees, selectorListTail (Tokens.skipBlank (ts ++ rest)) = .accepted trees (brace :: behind) ∧
      ∀ options known, (trees.filter (·.kind? == some .selector)).map
        (fun t => (r.selector options known t).result.map Selector.bare) =
          ss.map fun s => some s.bare := by
  induction ss generalizing ts with
  | nil =>
    obtain rfl := HasAll.eq_nil h
    have hbrace := hr.choose_spec.2.2
    refine ⟨[], ?_, fun _ _ => rfl⟩
    rw [List.nil_append, hr.skipBlank, selectorListTail_cons, if_neg (by simp [hbrace])]
  | cons s ss ih =>
    obtain ⟨⟨hplain, hshaped⟩, hss⟩ := List.forall_mem_cons.1 hp
    rw [furtherKinds, List.map_cons, List.flatMap_cons] at h
    obtain ⟨us, vs, rfl, hus, hvs⟩ := h.append
    obtain ⟨c, us, rfl, hc, hus⟩ := HasAll.cons hus
    obtain ⟨b, us, rfl, hb, hus⟩ := HasAll.cons hus
    obtain ⟨trees, hmore, hreads⟩ := ih hss hvs
    obtain ⟨tree, hselector, hkind, hread⟩ :=
      selector_written hplain hshaped hus (EndsSelector.of_further hvs hr)
    obtain ⟨t, us, rfl, ht⟩ := exists_startsSelector hshaped hus
    refine ⟨c.leaf :: tree :: trees, ?_, fun options known => ?_⟩
    · have front : Tokens.skipBlank (c :: b :: (t :: us) ++ vs ++ rest) =
          c :: b :: (t :: us ++ (vs ++ rest)) := by
        rw [List.append_assoc]
        exact skipBlank_cons (by simp [hc.kind]) _
      have behind : Tokens.skipBlank (b :: (t :: us ++ (vs ++ rest))) = t :: us ++ (vs ++ rest) := by
        rw [skipBlank_blank hb.kind]
        exact skipBlank_cons (startsCompound_ne ht).1 _
      rw [front, selectorListTail_cons, if_pos hc.kind, behind, hselector]
      dsimp only
      rw [hmore]
      rfl
    · simp [kind?_leaf, hkind, hread, hreads]

/-- The selectors of a rule up to the brace of its block. -/
theorem rulePrelude_written {ss : List Selector} (hne : ss ≠ [])
    (hp : ∀ s ∈ ss, s.isPlain = true ∧ s.IsShaped)
    (h : r.HasAll ts (separatedKinds commaKinds (ss.map Selector.kinds))) {brace : Placed}
    {behind : Tokens} (hr : EndsPrelude brace behind rest) :
    ∃ tree, rulePrelude (ts ++ rest) = .accepted (tree, brace.leaf) behind ∧
      tree.kind? = some .selectorList ∧
      ∀ options known, (r.selectors options known tree).result.map Selector.bare =
        ss.map Selector.bare := by
  obtain ⟨s, ss, rfl⟩ := List.exists_cons_of_ne_nil hne
  obtain ⟨⟨hplain, hshaped⟩, hss⟩ := List.forall_mem_cons.1 hp
  obtain ⟨us, vs, rfl, hus, hvs⟩ := HasAll.append h
  obtain ⟨trees, htail, hreads⟩ := selectorListTail_written hss hvs hr
  obtain ⟨tree, hselector, hkind, hread⟩ :=
    selector_written hplain hshaped hus (EndsSelector.of_further hvs hr)
  have hbrace := hr.choose_spec.2.2
  refine ⟨.node .selectorList tree.first (tree :: trees), ?_, rfl, fun options known => ?_⟩
  · simp only [List.append_assoc, rulePrelude, selectorList, bind_apply, hselector, htail, pure_apply,
      take_cons, hbrace, beq_self_eq_true, ↓reduceIte]
  · have hread' : ((tree :: trees).filter (·.kind? == some .selector)).map
        (fun t => (r.selector options known t).result.map Selector.bare) =
          (s :: ss).map fun s => some s.bare := by
      simp [hkind, hread, hreads]
    rw [Reading.selectors, Noted.collect?_result, List.map_filterMap]
    exact filterMap_of_map hread'

end Grammar

end Stylesheet
