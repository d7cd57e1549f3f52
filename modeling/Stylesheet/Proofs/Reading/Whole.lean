import Stylesheet.Proofs.Problem.Semantic
import Stylesheet.Proofs.Reading.Children
import Stylesheet.Proofs.Tree.Kinds

/-!
# Nothing is lost in reading

What a production allows is read as something: a term as a value, a declaration as a declaration, a
node that stands for a condition as that condition (`Reading.Whole`). And what is wrong with it is
noted as often as it is there: a hash that spells no color, an at-rule that says nothing
(`Reading.Raises`). Nothing is asked of the tokens, only that the tree is derived over them.
-/

namespace Stylesheet

open Computability Grammar Stylesheet.Tree

namespace Tree

/-- A term that is a hash with digits that spell no color. -/
def isStrayHash (tokens : List Token) (t : Tree) : Bool :=
  t.kind? == some .term && match tokens[t.first]?.map Token.kind with
    | some (.hash digits _) => (Color.ofHex? digits).isNone
    | _ => false

def isUnknownAtRule (t : Tree) : Bool := t.kind? == some .unknownAtRule

end Tree

namespace Reading

/-- Problems of trees: a color that is none for each stray hash in them, an at-rule for each that says
    nothing. -/
structure Raises (r : Reading) (ts : List Tree) (ps : List Problem) : Prop where
  colors : ps.countP (·.kind == .invalidColor) = Tree.count (isStrayHash r.tokens) ts
  atRules : ps.countP (·.kind == .invalidAtRule) = Tree.count isUnknownAtRule ts

/-- Nodes of a kind that have no term and no unknown at-rule in them. -/
def isQuiet (kind : NodeKind) : Bool :=
  (kind :: kindsBelow kind).all fun k => k != .term && k != .unknownAtRule

namespace Raises

variable {r : Reading} {ts us : List Tree} {ps qs : List Problem}

theorem nil : r.Raises [] [] := ⟨rfl, rfl⟩

theorem append (h : r.Raises ts ps) (h' : r.Raises us qs) : r.Raises (ts ++ us) (ps ++ qs) := by
  refine ⟨?_, ?_⟩
  · rw [List.countP_append, count_append, h.colors, h'.colors]
  · rw [List.countP_append, count_append, h.atRules, h'.atRules]

/-- Trees behind the others that raise nothing. -/
theorem appendQuiet (h : r.Raises ts ps) (h' : r.Raises us []) : r.Raises (ts ++ us) ps := by
  have := h.append h'
  rwa [List.append_nil] at this

/-- Problems of other kinds come from nothing that is counted. -/
theorem ofOnly {kinds : List ProblemKind} (h : ∀ p ∈ ps, p.kind ∈ kinds)
    (hc : .invalidColor ∉ kinds) (ha : .invalidAtRule ∉ kinds) : r.Raises [] ps := by
  have none {k : ProblemKind} (hk : k ∉ kinds) : ps.countP (·.kind == k) = 0 := by
    refine List.countP_eq_zero.2 fun p hp e => hk ?_
    rw [← eq_of_beq e]
    exact h p hp
  exact ⟨none hc, none ha⟩

/-- A node that counts for nothing itself. -/
theorem node (h : r.Raises ts ps) (kind : NodeKind) (place : Nat)
    (hk : (kind == .term || kind == .unknownAtRule) = false) :
    r.Raises [.node kind place ts] ps := by
  obtain ⟨ht, hu⟩ := Bool.or_eq_false_iff.1 hk
  refine ⟨?_, ?_⟩
  · rw [count_node, h.colors]
    simp [isStrayHash, Tree.kind?, beq_eq_false_iff_ne.1 ht]
  · rw [count_node, h.atRules]
    simp [isUnknownAtRule, Tree.kind?, beq_eq_false_iff_ne.1 hu]

/-- A tree without terms and unknown at-rules. -/
theorem quiet {t : Tree} (h : Derived r.tokens t)
    (hq : ∀ kind, t.kind? = some kind → isQuiet kind = true) : r.Raises [t] [] := by
  have none {p : Tree → Bool} {k : NodeKind} (hp : ∀ u, p u = true → u.kind? = some k)
      (hk : k = .term ∨ k = .unknownAtRule) : Tree.count p [t] = 0 := by
    rw [Tree.count, subtreesAmong, subtreesAmong, List.append_nil]
    refine List.countP_eq_zero.2 fun u hu e => ?_
    cases t with
    | leaf =>
      rw [List.mem_singleton.1 hu] at e
      cases hp _ e
    | node kind place children =>
      have hm := h.kind_of_subtree rfl hu (hp u e)
      have hall := List.all_eq_true.1 (hq kind rfl) k hm
      rcases hk with rfl | rfl <;> contradiction
  refine ⟨(none (fun u hu => ?_) (Or.inl rfl)).symm, (none (fun u hu => ?_) (Or.inr rfl)).symm⟩
  · exact beq_iff_eq.1 (Bool.and_eq_true_iff.1 hu).1
  · exact beq_iff_eq.1 hu

theorem leaf (index : Nat) : r.Raises [.leaf index] [] := ⟨rfl, rfl⟩

theorem leaves (is : List Nat) : r.Raises (is.map Tree.leaf) [] := by
  induction is with
  | nil => exact .nil
  | cons i is ih => exact (leaf i).append ih

theorem collect {α : Type} {f : Tree → Noted α} (h : ∀ t ∈ ts, r.Raises [t] (f t).problems) :
    r.Raises ts (Noted.collect f ts).problems := by
  induction ts with
  | nil => exact .nil
  | cons t ts ih =>
    obtain ⟨ht, hts⟩ := List.forall_mem_cons.1 h
    rw [Noted.collect, Noted.bind_problems, Noted.bind_problems, Noted.pure_problems, List.append_nil]
    exact ht.append (ih hts)

/-- Only some of the trees are read, and the others are quiet. -/
theorem ofFilter {p : Tree → Bool} (h : r.Raises (ts.filter p) ps)
    (hq : ∀ t ∈ ts, p t = false → r.Raises [t] []) : r.Raises ts ps := by
  have count_filter {q : Tree → Bool} (hn : ∀ t ∈ ts, p t = false → Tree.count q [t] = 0) :
      Tree.count q ts = Tree.count q (ts.filter p) := by
    clear h hq
    induction ts with
    | nil => rfl
    | cons t ts ih =>
      obtain ⟨ht, hts⟩ := List.forall_mem_cons.1 hn
      rw [count_cons, List.filter_cons, ih hts]
      cases hp : p t with
      | true => rw [if_pos rfl, count_cons t (ts.filter p)]
      | false => rw [if_neg (by decide), ht hp, Nat.zero_add]
  refine ⟨?_, ?_⟩
  · rw [h.colors, count_filter fun t ht hp => (hq t ht hp).colors.symm]
  · rw [h.atRules, count_filter fun t ht hp => (hq t ht hp).atRules.symm]

/-- A node with all nodes directly below it. -/
theorem ofNodes {t : Tree} {kind : NodeKind} (hk : t.kind? = some kind)
    (hm : (kind == .term || kind == .unknownAtRule) = false) (h : r.Raises t.nodes ps) :
    r.Raises [t] ps := by
  cases t with
  | leaf => contradiction
  | node kind' place children =>
    cases hk
    refine node (.ofFilter h fun u _ hn => ?_) kind place hm
    cases u with
    | leaf index => exact .leaf index
    | node => contradiction

end Raises

/-- Something is read of a tree, with its problems. -/
structure Whole {α : Type} (r : Reading) (t : Tree) (x : Noted (Option α)) : Prop where
  found : ∃ a, x.result = some a
  raises : r.Raises [t] x.problems

variable {r : Reading}

/-! ## Values -/

/-- A literal is something, and a color that is none only where a hash spells none. -/
theorem literal_whole {place i : Nat} {u : Token} (hi : r.tokens[i]? = some u)
    (hk : isLiteral u.kind = true) : r.Whole (.node .term place [.leaf i]) (r.literal i) := by
  have marked (ps : List Problem) (hc : ps.countP (·.kind == .invalidColor) =
      if isStrayHash r.tokens (.node .term place [.leaf i]) then 1 else 0)
      (ha : ps.countP (·.kind == .invalidAtRule) = 0) :
      r.Raises [.node .term place [.leaf i]] ps :=
    ⟨by rw [hc, count_node]; exact (Nat.zero_add _).symm, ha⟩
  rw [literal, hi]
  dsimp only
  cases hu : u.kind with
  | hash digits isId =>
    refine ⟨⟨_, rfl⟩, ?_⟩
    rw [Noted.bind_problems, hashValue]
    cases hc : Color.ofHex? digits with
    | none => exact marked _ (by simp [isStrayHash, Tree.kind?, first, hi, hu, hc]; rfl) rfl
    | some c => exact marked _ (by simp [isStrayHash, Tree.kind?, first, hi, hu, hc]) rfl
  | number | percentage | dimension | string | url | ident =>
    exact ⟨⟨_, rfl⟩, marked [] (by simp [isStrayHash, Tree.kind?, first, hi, hu]) rfl⟩
  | _ => rw [hu] at hk; contradiction

/-- Terms, with leaves between them. -/
theorem row_raises {ts : List Tree} (h : ∀ t ∈ ts, t.isNode = true → r.Raises [t] (r.term t).problems)
    (pending : Option Separator) : r.Raises ts (r.row pending ts).problems := by
  induction ts generalizing pending with
  | nil =>
    rw [row]
    exact .nil
  | cons t ts ih =>
    obtain ⟨ht, hts⟩ := List.forall_mem_cons.1 h
    cases t with
    | leaf i =>
      rw [row]
      exact (Raises.leaf i).append (ih hts _)
    | node kind place children =>
      rw [row, Noted.bind_problems]
      refine (ht rfl).append ?_
      split
      · exact ih hts pending
      · rw [Noted.bind_problems, Noted.pure_problems, List.append_nil]
        exact ih hts none

/-- Where a term is read as something, the row is not empty. -/
theorem row_ne_nil {ts : List Tree} {t : Tree} {v : Value} (ht : t ∈ ts)
    (hv : (r.term t).result = some v) (hn : t.isNode = true) (pending : Option Separator) :
    (r.row pending ts).result ≠ [] := by
  induction ts generalizing pending with
  | nil => contradiction
  | cons u ts ih =>
    cases u with
    | leaf i =>
      rcases List.mem_cons.1 ht with rfl | ht
      · contradiction
      · exact ih ht _
    | node kind place children =>
      rw [row, Noted.bind_result]
      rcases List.mem_cons.1 ht with rfl | ht
      · rw [hv]
        simp
      · cases (r.term (.node kind place children)).result with
        | none => exact ih ht pending
        | some w => simp

theorem isNode_of_termRow {named : Bool} {t : Tree} (h : [t] ∈ termRow named) : t.isNode = true := by
  cases t with
  | leaf => exact absurd h leaf_not_mem
  | node => rfl

/-- A value is a row of items, at least one. -/
theorem row_whole {named : Bool} {ts : List Tree} (hrow : ts ∈ valueRow (leafOf r.tokens) named)
    (h : ∀ t ∈ ts, [t] ∈ termRow named → r.Whole t (r.term t)) :
    (∃ p items, (r.row none ts).result = p :: items) ∧ r.Raises ts (r.row none ts).problems := by
  obtain ⟨first, rest, rfl, hfirst, hrest, -⟩ := mem_valueRow hrow
  have hw := h first List.mem_cons_self hfirst
  obtain ⟨v, hv⟩ := hw.found
  refine ⟨List.exists_cons_of_ne_nil
    (row_ne_nil List.mem_cons_self hv (isNode_of_termRow hfirst) none), row_raises ?_ none⟩
  refine List.forall_mem_cons.2 ⟨fun _ => hw.raises, fun t ht hn => ?_⟩
  rcases hrest t ht with hl | hterm
  · rw [hn] at hl
    contradiction
  · exact (h t (List.mem_cons_of_mem first ht) hterm).raises

theorem term_call {place f : Nat} {name : String} {rest : List Tree}
    (hf : r.kind? f = some (.function name)) :
    r.term (.node .functionCall place (.leaf f :: rest)) =
      do return (← r.arguments rest).map (Value.ofCall name) := by
  have hname : r.functionName? f = some name := by rw [functionName?, hf]
  rw [term, show first (.node .functionCall place (.leaf f :: rest)) = f from rfl, hname, arguments]
  intro _ _ e
  cases e

/-- What a function is called with, where the value of its arguments is a row of items. -/
theorem arguments_value (place : Nat) {ts : List Tree} (rest : List Tree) {p : Separator × Value}
    {items : List (Separator × Value)} (he : (r.row none ts).result = p :: items) :
    (r.arguments (.node .value place ts :: rest)).result =
        some (Value.combine p.2 items).commaItems ∧
      (r.arguments (.node .value place ts :: rest)).problems = (r.row none ts).problems := by
  rw [arguments, Noted.bind_result, Noted.bind_problems, he]
  exact ⟨rfl, List.append_nil _⟩

theorem term_named {place i e : Nat} {name : String} {t : Tree} (hi : r.kind? i = some (.ident name))
    (ht : t.isNode = true) :
    r.term (.node .namedArgument place [.leaf i, .leaf e, t]) =
      do return (← r.term t).map (Value.named name) := by
  have hname : r.ident? i = some name := by rw [ident?, hi]
  cases t with
  | leaf => contradiction
  | node =>
    rw [term, show first (.node .namedArgument place _) = i from rfl, hname, firstTerm, firstTerm,
      firstTerm]

/-- Every term is read, and so is every term directly below. -/
theorem term_whole {t : Tree} (h : Derived r.tokens t) :
    (∀ named, [t] ∈ termRow named → r.Whole t (r.term t)) ∧
      ∀ u ∈ t.children, ∀ named, [u] ∈ termRow named → r.Whole u (r.term u) := by
  -- as in a call the terms stand below its value, the children are carried along
  induction h with
  | leaf => exact ⟨fun _ hk => absurd hk leaf_not_mem, fun u hu => absurd hu List.not_mem_nil⟩
  | @node kind place children hp hs ih =>
    refine ⟨fun named hk => ?_, fun u hu => (ih u hu).1⟩
    rcases mem_termRow hk with rfl | rfl | ⟨rfl, rfl⟩
    · obtain ⟨i, u, rfl, hi, -, hl⟩ := leafOf_kind? hp
      rw [term]
      exact literal_whole hi hl
    · obtain ⟨f, name, row, c, rfl, hf, -, hrow⟩ := mem_functionCall hp
      rcases hrow with rfl | ⟨place', ts, rfl, hts⟩
      · rw [term_call hf]
        exact ⟨⟨_, rfl⟩, (Raises.leaves [f, c]).node .functionCall place rfl⟩
      · have hvalue : Tree.node .value place' ts ∈
            Tree.leaf f :: ([.node .value place' ts] ++ [.leaf c]) := by simp
        obtain ⟨⟨p, items, he⟩, hr⟩ := row_whole hts fun u hu => (ih _ hvalue).2 u hu true
        have hnode := hr.node .value place' rfl
        obtain ⟨ha, hps⟩ := arguments_value place' [.leaf c] he
        rw [List.singleton_append, term_call hf]
        refine ⟨⟨_, by rw [Noted.bind_result, ha]; rfl⟩, ?_⟩
        rw [Noted.bind_problems, hps, Noted.pure_problems, List.append_nil]
        exact ((Raises.leaf f).append (hnode.appendQuiet (.leaf c))).node .functionCall place rfl
    · obtain ⟨i, name, e, u, rfl, hi, hu⟩ := mem_namedArgument hp
      have hw := (ih u (by simp)).1 false hu
      rw [term_named hi (isNode_of_termRow hu)]
      obtain ⟨v, hv⟩ := hw.found
      refine ⟨⟨.named name v, by rw [Noted.bind_result, hv]; rfl⟩, ?_⟩
      rw [Noted.bind_problems, Noted.pure_problems, List.append_nil]
      exact ((Raises.leaves [i, e]).append hw.raises).node .namedArgument place rfl

/-- The value of a value node, whether it stands in a declaration or among arguments. -/
theorem value_whole {place : Nat} {ts : List Tree} {named : Bool}
    (h : Derived r.tokens (.node .value place ts)) (hrow : ts ∈ valueRow (leafOf r.tokens) named) :
    r.Whole (.node .value place ts) (r.value (.node .value place ts)) := by
  obtain ⟨⟨p, items, he⟩, hr⟩ := row_whole hrow fun u hu => (term_whole h).2 u hu named
  have hchildren : (Tree.node .value place ts).children = ts := rfl
  refine ⟨⟨Value.combine p.2 items, ?_⟩, ?_⟩
  · rw [value, Noted.bind_result, hchildren, he]
    rfl
  · rw [value, Noted.bind_problems, hchildren, he, Noted.pure_problems, List.append_nil]
    exact hr.node .value place rfl

/-! ## Declarations and features -/

theorem declaration_whole {t : Tree} (h : Derived r.tokens t) (hk : t.kind? = some .declaration) :
    r.Whole t (r.declaration t) := by
  obtain ⟨place, children, rfl, hp, hs⟩ := h.row hk
  obtain ⟨i, name, colon, place', ts, is, hi, rfl, hts⟩ := mem_declaration hp
  have hw := value_whole (hs (.node .value place' ts) (by simp)) hts
  obtain ⟨v, hv⟩ := hw.found
  have hname : r.ident? i = some name := by rw [ident?, hi]
  generalize ht : Tree.node .declaration place (.leaf i :: .leaf colon ::
      .node .value place' ts :: is.map Tree.leaf) = t
  have hfirst : r.ident? t.first = some name := by rw [← ht]; exact hname
  have hchild : t.child? .value = some (.node .value place' ts) := by rw [← ht]; rfl
  rw [declaration, hfirst, hchild]
  refine ⟨⟨_, by rw [Noted.bind_result, hv]; rfl⟩, ?_⟩
  rw [Noted.bind_problems, Noted.pure_problems, List.append_nil, ← ht]
  exact ((Raises.leaves [i, colon]).append (hw.raises.appendQuiet (.leaves is))).node
    .declaration place rfl

theorem mediaFeature_whole {t : Tree} (h : Derived r.tokens t) (hk : t.kind? = some .mediaFeature) :
    r.Whole t (r.mediaFeature t) := by
  obtain ⟨place, children, rfl, hp, hs⟩ := h.row hk
  obtain ⟨p, i, name, row, c, hpk, hi, rfl, hrow⟩ := mem_mediaFeature hp
  have hparen : r.ident? p = none := by rw [ident?, hpk]
  have hname : r.ident? i = some name := by rw [ident?, hi]
  generalize ht : Tree.node .mediaFeature place (.leaf p :: .leaf i :: (row ++ [.leaf c])) = t
  have hfirst : t.tokens.findSome? r.ident? = some name := by
    rw [← ht]
    simp [Tree.tokens, Tree.children, Tree.index?, hparen, hname]
  rw [mediaFeature, hfirst]
  rcases hrow with rfl | ⟨colon, place', ts, rfl, hts⟩
  · have hchild : t.child? .value = none := by rw [← ht]; rfl
    rw [hchild, ← ht]
    exact ⟨⟨_, rfl⟩, (Raises.leaves [p, i, c]).node .mediaFeature place rfl⟩
  · have hchild : t.child? .value = some (.node .value place' ts) := by rw [← ht]; rfl
    have hw := value_whole (hs (.node .value place' ts) (by simp)) hts
    rw [hchild]
    refine ⟨⟨_, rfl⟩, ?_⟩
    rw [Noted.bind_problems, Noted.pure_problems, List.append_nil, ← ht]
    exact ((Raises.leaves [p, i, colon]).append (hw.raises.appendQuiet (.leaf c))).node
      .mediaFeature place rfl

/-! ## Selectors -/

theorem attributeOf?_some (place : Nat) {children : List Tree}
    (h : children ∈ production (leafOf r.tokens) .attributeSelector) :
    ∃ name matcher, r.attributeOf? (.node .attributeSelector place children) =
      some (.attribute name matcher) := by
  obtain ⟨bracket, behind, hb, h₁, rfl⟩ := mem_prod_cons h
  obtain ⟨name, behind, hn, h₂, rfl⟩ := mem_prod_cons h₁
  obtain ⟨matcher, close, hm, h₃, rfl⟩ := mem_prod_cons h₂
  obtain ⟨i, u, rfl, -, hi, -⟩ := leafOf_kind? hb
  obtain ⟨j, v, rfl, -, hj, hv⟩ := leafOf_kind? hn
  obtain ⟨c, w, rfl, -, hc, hw⟩ := leafOf_kind? (mem_prod_last h₃)
  have hw : w.kind = .closing .square := eq_of_beq hw
  cases hkv : v.kind with
  | ident n =>
    rw [hkv] at hj
    rcases hm with hm | hm
    · rw [(Language.mem_one _).1 hm]
      exact ⟨n, none, by simp [attributeOf?, Tree.tokens, Tree.children, index?, hi, hj, hc, hw,
        attributeOfKinds?]⟩
    · obtain ⟨op, value, ho, hval, rfl⟩ := mem_prod_cons hm
      obtain ⟨k, a, rfl, -, hk, ha⟩ := leafOf_kind? ho
      obtain ⟨l, b, rfl, -, hl, hb⟩ := leafOf_kind? (mem_prod_last hval)
      cases hka : a.kind with
      | comparison op =>
        cases hkb : b.kind with
        | ident s | string s =>
          exact ⟨n, some (op, s), by simp [attributeOf?, Tree.tokens, Tree.children, index?, hi, hj,
            hk, hl, hka, hkb, attributeOfKinds?]⟩
        | _ => rw [hkb] at hb; contradiction
      | _ => rw [hka] at ha; contradiction
  | _ => rw [hkv] at hv; contradiction

/-- Every node that stands for a condition is read as one. -/
theorem conditionOf?_some {t : Tree} {kind : NodeKind} (h : Derived r.tokens t)
    (hk : t.kind? = some kind) (hc : kind ∈ conditionKinds) : ∃ k, r.conditionOf? t = some k := by
  obtain ⟨place, children, rfl, hp, -⟩ := h.row hk
  simp only [conditionKinds, List.mem_cons, List.not_mem_nil, or_false] at hc
  rcases hc with rfl | rfl | rfl | rfl
  · obtain ⟨i, u, rfl, -, hi, hu⟩ := leafOf_kind? hp
    cases hk : u.kind with
    | hash name isId =>
      rw [hk] at hi
      exact ⟨.hasId name, by simp [conditionOf?, Tree.kind?, idOf?, first, hi]⟩
    | _ => rw [hk] at hu; contradiction
  · obtain ⟨dot, name, hd, hn, rfl⟩ := mem_prod_cons hp
    obtain ⟨d, rfl⟩ := leaf_of_leafOf hd
    obtain ⟨i, v, rfl, -, hi, hv⟩ := leafOf_kind? (mem_prod_last hn)
    cases hk : v.kind with
    | ident name =>
      rw [hk] at hi
      exact ⟨.hasClass name, by simp [conditionOf?, Tree.kind?, classOf?, Tree.tokens,
        Tree.children, index?, ident?, hi]⟩
    | _ => rw [hk] at hv; contradiction
  · obtain ⟨name, matcher, e⟩ := attributeOf?_some place hp
    exact ⟨_, e⟩
  · obtain ⟨colons, element, i, is, -, hname, e⟩ := mem_pseudoSelector place hp
    rw [show r.conditionOf? (.node .pseudoSelector place children) = _ from e]
    rcases hname with ⟨name, hi, -⟩ | ⟨name, inner, c, hi, -, -⟩
    · exact ⟨_, by rw [pseudoOfName?, hi]⟩
    · exact ⟨_, by rw [pseudoOfName?, hi]⟩

/-- A selector has a compound, so it is read as one. -/
theorem selector_some {t : Tree} (h : Derived r.tokens t) (hk : t.kind? = some .selector)
    (options : Options) (known : List Namespace) :
    (r.selector options known t).result =
      some ⟨(t.nodesOf .simpleSelector).map fun u => (r.compound options known u).result,
        (t.nodesOf .combinator).map r.combinator, r.spanOf t⟩ := by
  obtain ⟨place, children, rfl, hp, -⟩ := h.row hk
  have hlength := length_nodesOf_selector place hp
  have hne : (((Tree.node .selector place children).nodesOf .simpleSelector).map fun u =>
      (r.compound options known u).result).isEmpty = false := by
    rw [List.isEmpty_map, ← Bool.not_eq_true, List.isEmpty_iff]
    intro e
    rw [e] at hlength
    contradiction
  rw [selector, Noted.bind_result, Noted.collect_result, hne]
  rfl

/-! ## Descriptors -/

theorem mem_replaceDescriptor {d e : Declaration} {ds : List Declaration}
    (h : e ∈ replaceDescriptor d ds) : e = d ∨ e ∈ ds := by
  induction ds with
  | nil => contradiction
  | cons c ds ih =>
    rw [replaceDescriptor] at h
    split at h
    · exact (List.mem_cons.1 h).imp_right (List.mem_cons_of_mem c)
    · rcases List.mem_cons.1 h with rfl | h
      · exact Or.inr List.mem_cons_self
      · exact (ih h).imp_right (List.mem_cons_of_mem c)

/-- Every descriptor is one of the declarations. -/
theorem mem_descriptors {kept ds : List Declaration} {e : Declaration}
    (h : e ∈ (r.descriptors kept ds).result) : e ∈ kept ∨ e ∈ ds := by
  induction ds generalizing kept with
  | nil => exact Or.inl h
  | cons d ds ih =>
    rw [descriptors] at h
    split at h
    · rcases ih h with h | h
      · exact (mem_replaceDescriptor h).elim (fun e => Or.inr (e ▸ List.mem_cons_self)) Or.inl
      · exact Or.inr (List.mem_cons_of_mem d h)
    · rcases ih h with h | h
      · refine (List.mem_append.1 h).imp_right fun hd => ?_
        rw [List.mem_singleton.1 hd]
        exact List.mem_cons_self
      · exact Or.inr (List.mem_cons_of_mem d h)

/-- A descriptor is read from a declaration below its rule. -/
theorem exists_of_descriptor {t : Tree} {e : Declaration}
    (h : e ∈ (r.fontFace t).result.descriptors) :
    ∃ u ∈ t.subtrees, u.kind? = some .declaration ∧ (r.declaration u).result = some e := by
  unfold fontFace at h
  split at h
  · exact absurd ((mem_descriptors h).resolve_left List.not_mem_nil) List.not_mem_nil
  · rename_i block hb
    have hm : e ∈ (r.declarations block).result :=
      (mem_descriptors h).resolve_left List.not_mem_nil
    rw [declarations, Noted.collect?_result] at hm
    obtain ⟨u, hu, he⟩ := List.mem_filterMap.1 hm
    obtain ⟨hc, hk⟩ := List.mem_filter.1 hu
    exact ⟨u, mem_subtrees_of_child (child?_eq_some hb).1
      (mem_subtrees_of_child hc (self_mem_subtrees u)), beq_iff_eq.1 hk, he⟩

end Reading

end Stylesheet
