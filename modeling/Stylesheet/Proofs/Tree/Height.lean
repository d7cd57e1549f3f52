import Mathlib.Data.List.Chain
import Stylesheet.Proofs.Reading.Children
import Stylesheet.Proofs.Token.Depth
import Stylesheet.Proofs.Tree.Covering
import Stylesheet.Proofs.Tree.Kinds
import Stylesheet.Proofs.Tree.Parts

/-!
# The height of a tree

Only function calls can stand inside one another without end. The calls of a value are balanced in
the tokens below it (`Nests`), so as many calls as stand inside one another in the tree are open at
some place among the tokens, and in the tokens of a text that is never more than the nesting limit.
From one call to the next one inside it there are at most two nodes in between, and above the
outermost one at most seven (`Derived.height_le`), so the limit bounds the height of the whole tree
(`parseTokens_nesting`).
-/

namespace Stylesheet

open Computability Grammar

namespace Tree

mutual

/-- How many nodes stand above one another in a tree. -/
def height : Tree → Nat
  | .leaf _ => 0
  | .node _ _ children => heightAmong children + 1

def heightAmong : List Tree → Nat
  | [] => 0
  | t :: ts => max t.height (heightAmong ts)

end

mutual

/-- How many function calls stand inside one another in a tree. -/
def calls : Tree → Nat
  | .leaf _ => 0
  | .node kind _ children => callsAmong children + if kind = .functionCall then 1 else 0

def callsAmong : List Tree → Nat
  | [] => 0
  | t :: ts => max t.calls (callsAmong ts)

end

theorem callsAmong_append (ts us : List Tree) :
    callsAmong (ts ++ us) = max (callsAmong ts) (callsAmong us) := by
  induction ts with
  | nil => exact (Nat.zero_max _).symm
  | cons t ts ih => rw [List.cons_append, callsAmong, ih, callsAmong, Nat.max_assoc]

theorem calls_le_callsAmong {ts : List Tree} {t : Tree} (h : t ∈ ts) : t.calls ≤ callsAmong ts := by
  induction ts with
  | nil => contradiction
  | cons u ts ih =>
    rw [callsAmong]
    rcases List.mem_cons.1 h with rfl | h
    · exact Nat.le_max_left ..
    · exact Nat.le_trans (ih h) (Nat.le_max_right ..)

theorem callsAmong_le {ts : List Tree} {n : Nat} (h : ∀ t ∈ ts, t.calls ≤ n) : callsAmong ts ≤ n := by
  induction ts with
  | nil => exact Nat.zero_le n
  | cons t ts ih =>
    obtain ⟨ht, hts⟩ := List.forall_mem_cons.1 h
    exact Nat.max_le.2 ⟨ht, ih hts⟩

theorem heightAmong_le {ts : List Tree} {n : Nat} (h : ∀ t ∈ ts, t.height ≤ n) :
    heightAmong ts ≤ n := by
  induction ts with
  | nil => exact Nat.zero_le n
  | cons t ts ih =>
    obtain ⟨ht, hts⟩ := List.forall_mem_cons.1 h
    exact Nat.max_le.2 ⟨ht, ih hts⟩

theorem calls_node {kind : NodeKind} (h : kind ≠ .functionCall) (place : Nat)
    (children : List Tree) : (node kind place children).calls = callsAmong children := by
  rw [calls, if_neg h, Nat.add_zero]

theorem calls_functionCall (place : Nat) (children : List Tree) :
    (node .functionCall place children).calls = callsAmong children + 1 := by
  rw [calls, if_pos rfl]

/-- A node is one node higher than what stands below it. -/
theorem height_node_le {kind : NodeKind} {place n : Nat} {children : List Tree}
    (h : ∀ t ∈ children, t.height ≤ n + 3 * t.calls) :
    (node kind place children).height ≤ n + 1 + 3 * callsAmong children := by
  have hall : heightAmong children ≤ n + 3 * callsAmong children := by
    refine heightAmong_le fun t ht => ?_
    have := h t ht
    have := calls_le_callsAmong ht
    omega
  rw [height]
  omega

/-! ## Chains -/

mutual

theorem calls_le_of_mem {t u : Tree} (h : u ∈ t.subtrees) : u.calls ≤ t.calls := by
  cases t with
  | leaf index => rw [List.mem_singleton.1 h]
  | node kind place children =>
    rcases List.mem_cons.1 h with rfl | h
    · exact Nat.le_refl _
    · exact Nat.le_trans (calls_le_of_mem_among h) (Nat.le_add_right ..)

theorem calls_le_of_mem_among {ts : List Tree} {u : Tree} (h : u ∈ subtreesAmong ts) :
    u.calls ≤ callsAmong ts := by
  cases ts with
  | nil => contradiction
  | cons t ts =>
    rcases List.mem_append.1 h with h | h
    · exact Nat.le_trans (calls_le_of_mem h) (Nat.le_max_left ..)
    · exact Nat.le_trans (calls_le_of_mem_among h) (Nat.le_max_right ..)

end

/-- Trees that stand inside one another, the outermost in front. -/
def Nested (chain : List Tree) : Prop := chain.IsChain fun t u => u ∈ subtreesAmong t.children

/-- Calls that stand inside one another are no more than a tree around them has. -/
theorem Nested.length_le {chain : List Tree} (h : Nested chain)
    (hk : ∀ u ∈ chain, u.kind? = some .functionCall) {ts : List Tree}
    (hs : ∀ u ∈ chain.head?, u ∈ subtreesAmong ts) : chain.length ≤ callsAmong ts := by
  induction chain generalizing ts with
  | nil => exact Nat.zero_le _
  | cons t chain ih =>
    obtain ⟨ht, hk⟩ := List.forall_mem_cons.1 hk
    obtain ⟨hhead, hchain⟩ := List.isChain_cons.1 h
    have hbelow := ih hchain hk hhead
    have htop := calls_le_of_mem_among (hs t rfl)
    cases t with
    | leaf => contradiction
    | node kind place children =>
      cases ht
      rw [calls_functionCall] at htop
      exact Nat.le_trans (Nat.succ_le_succ hbelow) htop

end Tree

namespace Grammar

open Reading

/-- Rows whose tokens are balanced if those below their nodes are. -/
def NestRows (r : Reading) (l : Language Tree) : Prop :=
  ∀ row ∈ l, (∀ t ∈ row, t.isNode = true → Nests t.calls (r.kindsAt t.leaves)) →
    Nests (Tree.callsAmong row) (r.kindsAt (Tree.leavesAmong row))

namespace NestRows

variable {r : Reading} {l m : Language Tree}

theorem one : NestRows r 1 := by
  intro row h _
  rw [(Language.mem_one _).1 h]
  exact .nil

theorem add (hl : NestRows r l) (hm : NestRows r m) : NestRows r (l + m) :=
  fun row h => h.elim (hl row) (hm row)

theorem mul (hl : NestRows r l) (hm : NestRows r m) : NestRows r (l * m) := by
  intro row h hn
  obtain ⟨a, ha, b, hb, rfl⟩ := Language.mem_mul.1 h
  rw [Tree.callsAmong_append, Tree.leavesAmong_append, kindsAt_append]
  exact (hl a ha fun t ht => hn t (List.mem_append_left b ht)).append
    (hm b hb fun t ht => hn t (List.mem_append_right a ht))

theorem star (hl : NestRows r l) : NestRows r l∗ := by
  intro row h hn
  induction h using star_induction with
  | nil => exact .nil
  | cons part hpart rest hrest ih =>
    rw [Tree.callsAmong_append, Tree.leavesAmong_append, kindsAt_append]
    exact (hl part hpart fun t ht => hn t (List.mem_append_left rest ht)).append
      (ih fun t ht => hn t (List.mem_append_right part ht))

theorem cons {ls : List (Language Tree)} (h : NestRows r l) (hs : NestRows r ls.prod) :
    NestRows r (l :: ls).prod := by
  rw [List.prod_cons]
  exact h.mul hs

theorem nodeIn (kinds : List NodeKind) : NestRows r (nodeIn kinds) := by
  intro row h hn
  obtain ⟨kind, -, place, children, rfl⟩ := h
  have ht := hn _ List.mem_cons_self rfl
  rw [Tree.callsAmong, Tree.callsAmong, Nat.max_zero, Tree.leavesAmong, Tree.leavesAmong,
    List.append_nil]
  exact ht

/-- Tokens that open and close nothing. -/
theorem leafOf {p : TokenKind → Bool}
    (hp : ∀ k, p k = true → k.opens? = none ∧ k.isClosing = false) : NestRows r (leafOf r.tokens p) := by
  intro row h _
  obtain ⟨i, t, hi, -, hk, rfl⟩ := h
  show Nests 0 (r.kindsAt [i])
  rw [kindsAt_cons (by rw [kind?, hi]; rfl)]
  exact .one (hp t.kind hk).1 (hp t.kind hk).2

theorem ident : NestRows r (Grammar.leafOf r.tokens TokenKind.isIdent) := by
  refine leafOf fun k hp => ?_
  cases k with
  | function | opening | closing => contradiction
  | _ => exact ⟨rfl, rfl⟩

/-- One kind of token. -/
theorem only {k : TokenKind} (ho : k.opens? = none) (hc : k.isClosing = false) :
    NestRows r (Grammar.leafOf r.tokens (· == k)) :=
  leafOf fun l hl => by rw [eq_of_beq hl]; exact ⟨ho, hc⟩

end NestRows

/-- A term, with a name or without. -/
theorem nestRows_valueRow (r : Reading) (named : Bool) :
    NestRows r (valueRow (leafOf r.tokens) named) := by
  have hseparator : NestRows r (leafOf r.tokens fun k => isSeparator k || k == .whitespace) := by
    refine .leafOf fun k hk => ?_
    cases k with
    | comma | slash | whitespace => exact ⟨rfl, rfl⟩
    | _ => simp [isSeparator] at hk
  exact (NestRows.nodeIn _).mul ((NestRows.one.add hseparator).mul (.nodeIn _)).star

/-- The kinds of a value and of what stands below it. -/
def valueKinds : List NodeKind := [.value, .term, .functionCall, .namedArgument]

section

variable {r : Reading}

/-- The tokens below a value are balanced. -/
theorem Derived.nests {t : Tree} (h : Derived r.tokens t) {kind : NodeKind}
    (hk : t.kind? = some kind) (hv : kind ∈ valueKinds) : Nests t.calls (r.kindsAt t.leaves) := by
  -- on the tree: a call adds its parentheses around balanced tokens, all else only joins rows
  induction h generalizing kind with
  | leaf => contradiction
  | @node kind place children hrow hs ih =>
    cases hk
    have hclosed : ∀ k ∈ valueKinds, ∀ k' ∈ childKinds k, k' ∈ valueKinds := by decide
    have hbelow (c : Tree) (hc : c ∈ children) (hn : c.isNode = true) :
        Nests c.calls (r.kindsAt c.leaves) := by
      cases c with
      | leaf => contradiction
      | node k place' ts =>
        have hk' := List.contains_iff_mem.1 (kindRows_production kind _ hrow _ hc k rfl)
        exact ih _ hc rfl (hclosed kind hv k hk')
    cases kind with
    | value =>
      rw [Tree.calls_node (by decide), Tree.leaves]
      exact nestRows_valueRow r true children hrow hbelow
    | term =>
      rw [Tree.calls_node (by decide), Tree.leaves]
      refine NestRows.leafOf (fun k hp => ?_) children hrow hbelow
      cases k with
      | function | opening | closing => contradiction
      | _ => exact ⟨rfl, rfl⟩
    | namedArgument =>
      rw [Tree.calls_node (by decide), Tree.leaves]
      exact NestRows.cons .ident ((NestRows.only rfl rfl).cons ((NestRows.nodeIn _).cons .one))
        children hrow hbelow
    | functionCall =>
      rw [Tree.calls_functionCall, Tree.leaves]
      obtain ⟨f, name, row, c, rfl, hf, hc, hr⟩ := mem_functionCall hrow
      have hinner : Nests (Tree.callsAmong row) (r.kindsAt (Tree.leavesAmong row)) := by
        rcases hr with rfl | ⟨place', ts, rfl, -⟩
        · exact .nil
        · exact NestRows.nodeIn [.value] _ (mem_nodeIn List.mem_cons_self place' ts)
            fun t ht => hbelow t (List.mem_cons_of_mem _ (List.mem_append_left _ ht))
      have hcalls : Tree.callsAmong (.leaf f :: (row ++ [.leaf c])) = Tree.callsAmong row := by
        rw [Tree.callsAmong, Tree.callsAmong_append]
        exact (Nat.zero_max _).trans (Nat.max_zero _)
      have hleaves : Tree.leavesAmong (.leaf f :: (row ++ [.leaf c])) =
          f :: (Tree.leavesAmong row ++ [c]) := by
        rw [Tree.leavesAmong, Tree.leavesAmong_append]
        rfl
      rw [hcalls, hleaves, kindsAt_cons hf, kindsAt_append, kindsAt_cons hc]
      exact hinner.block rfl
    | _ => contradiction

/-- As many calls as stand inside one another in a tree are open somewhere among its tokens. -/
theorem Derived.calls_le_mostOpen {t : Tree} (h : Derived r.tokens t) (stack : List Bracket) :
    t.calls ≤ mostOpen stack (r.kindsAt t.leaves) := by
  induction h generalizing stack with
  | leaf index => exact Nat.zero_le _
  | @node kind place children hrow hs ih =>
    by_cases hk : kind = .functionCall
    · have hd : Derived r.tokens (.node kind place children) := .node hrow hs
      have hnests := hd.nests rfl (by rw [hk]; decide)
      rw [(hnests stack).2]
      exact Nat.le_add_left ..
    · rw [Tree.calls_node hk, Tree.leaves]
      refine Tree.callsAmong_le fun c hc => ?_
      obtain ⟨stack', hs⟩ := exists_mostOpen_le_of_infix ((Tree.infix_leavesAmong hc).filterMap _) stack
      exact Nat.le_trans (ih c hc stack') hs

/-! ## Parts -/

/-- What is left out of a tree without being lost opens and closes nothing. -/
theorem mostOpen_of_accounts {ts gone : Tokens} {ls es : List Nat} (h : Accounts ts ls es gone)
    (hg : gone = []) (hd : DrawnFrom r.tokens ts) (stack : List Bracket) :
    mostOpen stack (r.kindsAt ls) ≤ mostOpen stack (ts.map Placed.kind) := by
  induction h generalizing stack with
  | nil => exact Nat.le_refl _
  | leaf t h ih | error t h ih =>
    have ht : r.kind? t.index = some t.kind := by
      rw [kind?, (hd t List.mem_cons_self).1]
      rfl
    rw [kindsAt_cons ht, List.map_cons]
    exact Nat.max_le.2 ⟨Nat.le_max_left .., Nat.le_trans (ih hg hd.tail _) (Nat.le_max_right ..)⟩
  | @blank t ht _ _ _ _ h ih =>
    have hk : t.kind = .whitespace := eq_of_beq ht
    rw [List.map_cons, mostOpen, hk, bracketsBehind_of_inert rfl rfl]
    exact Nat.le_trans (ih hg hd.tail stack) (Nat.le_max_right ..)
  | lost t h ih => contradiction

/-- The kinds of what stands below a part, but is none. -/
def innerKinds : List NodeKind := .mediaFeature :: valueKinds

theorem not_mem_innerKinds {kind k : NodeKind} (hp : (partReader? kind).isNone = true)
    (hi : kind ∉ innerKinds) (hk : k ∈ childKinds kind) : k ∉ innerKinds := by
  revert k
  revert hp hi
  cases kind <;> decide

/-- Calls stand only in parts, and a part holds all tokens it was made of but blanks. -/
theorem Assembled.calls_le {t : Tree} (h : Assembled (numbered r.tokens) t) (hd : Derived r.tokens t)
    {kind : NodeKind} (hk : t.kind? = some kind) (hi : kind ∉ innerKinds) :
    t.calls ≤ mostOpen [] (r.tokens.map Token.kind) := by
  induction h generalizing kind with
  | leaf index => contradiction
  | @node kind hp place children hs ih =>
    cases hk
    have hcall : kind ≠ .functionCall := by
      rintro rfl
      exact hi (by decide)
    rw [Tree.calls_node hcall]
    refine Tree.callsAmong_le fun c hc => ?_
    cases c with
    | leaf => exact Nat.zero_le _
    | node k place' ts =>
      have hk := hd.kind_of_child rfl hc rfl
      exact ih _ hc (hd.child hc) rfl (not_mem_innerKinds (Option.isNone_iff_eq_none.2 hp) hi hk)
  | @part kind' p hp s rest hs t hk' h =>
    have hall := numbered_drawnFrom r.tokens
    -- the tokens of a part stand together, so what is open inside it is open in the whole list
    obtain ⟨taken, htaken, hreads⟩ := (Assembled.part hp hs hk' h).reads hall hk' hp
    have hkinds := (numbered_prefix_tokens r.tokens).map Token.kind
    rw [List.map_map] at hkinds
    have hinfix := (htaken.map Placed.kind).trans hkinds.isInfix
    obtain ⟨stack, hm⟩ := exists_mostOpen_le_of_infix hinfix []
    have ha := hreads.accounts
    rw [Tree.leavesAmong, Tree.leavesAmong, List.append_nil] at ha
    exact Nat.le_trans (hd.calls_le_mostOpen stack) (Nat.le_trans
      (mostOpen_of_accounts ha rfl (fun u hu => hall u (htaken.subset hu)) stack) hm)

/-! ## Height -/

/-- How high a tree is at most that has no calls. -/
def levels : NodeKind → Nat
  | .stylesheet => 7
  | .mediaRule => 6
  | .fontFaceRule | .mediaQueryList | .rule => 5
  | .mediaQuery | .selectorList | .declarationBlock => 4
  | .mediaFeature | .selector | .declaration | .value => 3
  | .namespaceRule | .simpleSelector | .namedArgument => 2
  | .namespacePrefix | .unknownAtRule | .elementName | .idSelector | .classSelector
  | .attributeSelector | .pseudoSelector | .combinator | .term | .functionCall | .error => 1

/-- A value whose terms have no names, as in a declaration. -/
def IsPlain (t : Tree) : Prop :=
  t.kind? = some .value ∧ ∀ c ∈ t.children, c.kind? ≠ some .namedArgument

theorem isPlain_of_valueRow {place : Nat} {ts : List Tree} (h : ts ∈ valueRow (leafOf r.tokens) false) :
    IsPlain (.node .value place ts) := by
  obtain ⟨first, rest, rfl, hfirst, hrest, -⟩ := mem_valueRow h
  have hterm {c : Tree} (hc : [c] ∈ termRow false) : c.kind? ≠ some .namedArgument := by
    intro hk
    cases c with
    | leaf => contradiction
    | node kind place ts =>
      cases hk
      rcases mem_termRow hc with h | h | h
      · contradiction
      · contradiction
      · exact absurd h.2 Bool.false_ne_true
  refine ⟨rfl, fun c hc => ?_⟩
  rcases List.mem_cons.1 hc with rfl | hc
  · exact hterm hfirst
  · rcases hrest c hc with hleaf | hc
    · cases c with
      | leaf => simp [Tree.kind?]
      | node => contradiction
    · exact hterm hc

/-- The nodes below a declaration or a feature are plain values. -/
theorem isPlain_of_mem {kind k : NodeKind} {children : List Tree} {c : Tree}
    (hrow : children ∈ production (leafOf r.tokens) kind)
    (hp : kind = .declaration ∨ kind = .mediaFeature) (hc : c ∈ children)
    (hk : c.kind? = some k) : IsPlain c := by
  have leaf {i : Nat} (e : c = .leaf i) : IsPlain c := by
    rw [e] at hk
    contradiction
  rcases hp with rfl | rfl
  · obtain ⟨i, name, colon, place, ts, is, -, rfl, hts⟩ :=
      mem_declaration hrow
    rcases List.mem_cons.1 hc with e | hc
    · exact leaf e
    · rcases List.mem_cons.1 hc with e | hc
      · exact leaf e
      · rcases List.mem_cons.1 hc with rfl | hc
        · exact isPlain_of_valueRow hts
        · obtain ⟨j, -, e⟩ := List.mem_map.1 hc
          exact leaf e.symm
  · obtain ⟨p, i, name, row, close, -, -, rfl, hr⟩ :=
      mem_mediaFeature hrow
    rcases List.mem_cons.1 hc with e | hc
    · exact leaf e
    · rcases List.mem_cons.1 hc with e | hc
      · exact leaf e
      · rcases List.mem_append.1 hc with hc | hc
        · rcases hr with rfl | ⟨colon, place, ts, rfl, hts⟩
          · contradiction
          · rcases List.mem_cons.1 hc with e | hc
            · exact leaf e
            · rw [List.mem_singleton.1 hc]
              exact isPlain_of_valueRow hts
        · exact leaf (List.mem_singleton.1 hc)

/-- From every kind of node but a call one level at least goes down to its children. A declaration and
    a feature have plain values, which are a level lower than others. -/
theorem levels_lt {kind k : NodeKind} (hc : kind ≠ .functionCall)
    (hp : ¬ (kind = .declaration ∨ kind = .mediaFeature)) (hk : k ∈ childKinds kind) :
    levels k < levels kind := by
  revert k
  revert hc hp
  cases kind <;> decide

/-- The height of a tree is that of one without calls, and three nodes more for every call. -/
theorem Derived.height_le {t : Tree} (h : Derived r.tokens t) :
    (∀ kind, t.kind? = some kind → t.height ≤ levels kind + 3 * t.calls) ∧
      (IsPlain t → t.height ≤ 2 + 3 * t.calls) := by
  induction h with
  | leaf index => exact ⟨nofun, fun hp => nomatch hp.1⟩
  | @node kind place children hrow hs ih =>
    -- what stands below is bounded by the levels of its kinds, or as a plain value
    have below {n : Nat} (hn : ∀ c ∈ children, ∀ k ∈ childKinds kind, c.kind? = some k →
        levels k ≤ n ∨ IsPlain c ∧ 2 ≤ n) :
        (Tree.node kind place children).height ≤ n + 1 + 3 * Tree.callsAmong children := by
      refine Tree.height_node_le fun c hc => ?_
      cases c with
      | leaf => exact Nat.zero_le _
      | node k place' ts =>
        have hk := List.contains_iff_mem.1 (kindRows_production kind _ hrow _ hc k rfl)
        obtain ⟨hlevel, hplain⟩ := ih _ hc
        rcases hn _ hc k hk rfl with hk | ⟨hp, hk⟩
        · have := hlevel k rfl
          omega
        · have := hplain hp
          omega
    refine ⟨fun _ hk => ?_, fun ⟨hk, hplain⟩ => ?_⟩
    · cases hk
      by_cases hcall : kind = .functionCall
      · subst hcall
        have : (Tree.node .functionCall place children).height ≤ 3 + 1 + 3 * _ :=
          below fun c _ k hk _ => Or.inl (List.mem_singleton.1 hk ▸ Nat.le_refl 3)
        rw [Tree.calls_functionCall]
        show _ ≤ 1 + _
        omega
      · rw [Tree.calls_node hcall]
        by_cases hplain : kind = .declaration ∨ kind = .mediaFeature
        · have hlevel : levels kind = 2 + 1 := by rcases hplain with rfl | rfl <;> rfl
          rw [hlevel]
          exact below fun c hc k _ hk => Or.inr ⟨isPlain_of_mem hrow hplain hc hk, Nat.le_refl 2⟩
        · obtain ⟨n, hn⟩ : ∃ n, levels kind = n + 1 := by cases kind <;> exact ⟨_, rfl⟩
          rw [hn]
          refine below fun c _ k hk _ => Or.inl ?_
          have := levels_lt hcall hplain hk
          omega
    · cases hk
      rw [Tree.calls_node (by decide)]
      refine below fun c hc k hk hck => Or.inl ?_
      have hname : k ≠ .namedArgument := fun e => hplain c hc (e ▸ hck)
      have : ∀ k ∈ childKinds .value, k ≠ .namedArgument → levels k ≤ 1 := by decide
      exact this k hk hname

end

end Grammar

/-- The nesting limit also bounds the tree of a text: function calls that stand inside one another are
    no more than it allows, and only they make a tree higher than seven nodes. -/
theorem parseTokens_nesting (source : String) (text : List Char) (options : Options) :
    let tree := (parseTokens source (tokenize source text options).tokens).tree
    (∀ chain : List Tree, Tree.Nested chain → (∀ u ∈ chain, u ∈ tree.nodesBelow [.functionCall]) →
      chain.length ≤ options.maxNestingDepth) ∧
      tree.height ≤ 7 + 3 * options.maxNestingDepth := by
  intro tree
  let r : Reading := ⟨source, (tokenize source text options).tokens⟩
  have hd : Derived r.tokens tree := derived_parseTokens source r.tokens
  have hcalls : tree.calls ≤ options.maxNestingDepth := by
    have hassembled : Assembled (numbered r.tokens) tree :=
      .node rfl _ (statements_assembled _ (numbered_drawnFrom _) (List.suffix_refl _))
    exact Nat.le_trans (hassembled.calls_le hd rfl (by decide))
      (Nat.le_trans (mostOpen_tokenize source text options) (Nat.min_le_left ..))
  refine ⟨fun chain hchain hmem => ?_, ?_⟩
  · have hnodes (u : Tree) (hu : u ∈ chain) : u ∈ tree.subtrees ∧ u.kind? = some .functionCall := by
      obtain ⟨hs, hk⟩ := List.mem_filter.1 (hmem u hu)
      rw [Tree.isOf_singleton] at hk
      exact ⟨hs, eq_of_beq hk⟩
    have hlength : chain.length ≤ Tree.callsAmong [tree] :=
      hchain.length_le (fun u hu => (hnodes u hu).2) fun u hu =>
        Tree.mem_subtreesAmong.2 ⟨tree, List.mem_singleton_self tree,
          (hnodes u (List.mem_of_mem_head? hu)).1⟩
    rw [Tree.callsAmong, Tree.callsAmong, Nat.max_zero] at hlength
    exact Nat.le_trans hlength hcalls
  · have hheight : tree.height ≤ 7 + 3 * tree.calls := hd.height_le.1 .stylesheet rfl
    omega

end Stylesheet
