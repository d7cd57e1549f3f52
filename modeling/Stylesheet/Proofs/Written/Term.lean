import Stylesheet.Proofs.Grammar.Equations
import Stylesheet.Proofs.Written.Token

/-!
# The tree of a written value

The tokens of a value are accepted by the grammar as far as they go, and the tree that
comes of them is read as the value. A value is met as its row of terms; the terms are read by
induction on the number of tokens (`readsTerms`), since the arguments of a call are a row again.
-/

namespace Stylesheet

theorem Noted.pure_bind {α β : Type} (a : α) (f : α → Noted β) : (pure a >>= f) = f a := rfl

namespace Reading

/-- The tokens stand in the list that trees are read against. -/
def Holds (r : Reading) (s : Tokens) : Prop := ∀ t ∈ s, r.tokens[t.index]? = some t.token

/-- The tree is a node that is read as the value, without a problem. -/
def ReadsAs (r : Reading) (tree : Tree) (v : Value) : Prop :=
  tree.isNode = true ∧ r.term tree = pure (some v)

variable {r : Reading}

theorem Holds.append {s s' : Tokens} (h : r.Holds (s ++ s')) : r.Holds s ∧ r.Holds s' :=
  ⟨fun t ht => h t (List.mem_append_left _ ht), fun t ht => h t (List.mem_append_right _ ht)⟩

theorem Holds.cons {t : Placed} {s : Tokens} (h : r.Holds (t :: s)) :
    r.tokens[t.index]? = some t.token ∧ r.Holds s :=
  ⟨h t List.mem_cons_self, fun u hu => h u (List.mem_cons_of_mem _ hu)⟩

theorem kind?_of_holds {t : Placed} (h : r.tokens[t.index]? = some t.token) :
    r.kind? t.index = some t.kind := by
  rw [kind?, h]
  rfl

theorem row_leaf (pending : Option Separator) (t : Placed) (rest : List Tree) :
    r.row pending (t.leaf :: rest) = r.row ((r.separator? t.index).or pending) rest := by
  rw [Placed.leaf, row]

theorem row_node {tree : Tree} {v : Value} (h : r.ReadsAs tree v) (pending : Option Separator)
    {rest : List Tree} {vs : List (Separator × Value)} (hr : r.row none rest = pure vs) :
    r.row pending (tree :: rest) = pure ((pending.getD .space, v) :: vs) := by
  obtain ⟨hn, ht⟩ := h
  cases tree with
  | leaf => contradiction
  | node kind place children =>
    rw [row, ht, Noted.pure_bind]
    dsimp only
    rw [hr, Noted.pure_bind]

/-- A separator with the item behind it. -/
theorem row_separator {c : Placed} {k : Separator} (hc : r.separator? c.index = some k)
    {tree : Tree} {v : Value} (h : r.ReadsAs tree v) {rest : List Tree}
    {vs : List (Separator × Value)} (hr : r.row none rest = pure vs) :
    r.row none (c.leaf :: tree :: rest) = pure ((k, v) :: vs) := by
  rw [row_leaf, hc]
  exact row_node h (some k) hr

end Reading

namespace Grammar

open Production Reading Value

/-- The tokens that end a row, blanks aside: none of them goes on with it. -/
def EndsRow (rest : Tokens) : Prop :=
  ∃ t behind, Tokens.skipBlank rest = t :: behind ∧
    (t.kind = .closing .paren ∨ t.kind = .semicolon ∨ t.kind = .important)

theorem EndsRow.of_cons {t : Placed} {behind : Tokens}
    (h : t.kind = .closing .paren ∨ t.kind = .semicolon) : EndsRow (t :: behind) :=
  ⟨t, behind, skipBlank_cons (by rcases h with e | e <;> simp [e]) behind, h.imp_right Or.inl⟩

theorem equalsSign?_eq_none {t : Placed} {s rest : Tokens} (h : Tokens.skipBlank s = t :: rest)
    (ht : t.kind ≠ .comparison .equals) : equalsSign? s = none := by
  rw [equalsSign?, h]
  dsimp only
  rw [if_neg ht]

/-- An item of a row begins with a token that a term may begin with. -/
theorem startsTerm_kinds {named : Bool} {v : Value} (h : v.IsShaped named) (ha : v.rank = 3) :
    ∃ k ks, v.kinds = k :: ks ∧ startsTerm k = true := by
  match v, h, ha with
  | .string _, _, _ | .ident _, _, _ | .color _, _, _ | .url _, _, _ | .call _ _, _, _
  | .named _ _, _, _ => exact ⟨_, _, rfl, rfl⟩
  | .number _ none, _, _ => exact ⟨_, _, rfl, rfl⟩
  | .number _ (some u), _, _ =>
    refine ⟨_, _, rfl, ?_⟩
    rw [numberKind]
    split <;> rfl
  | .list s _, _, ha => exact absurd ha (Nat.ne_of_lt (strength_lt s))

theorem startsTerm_ne {k : TokenKind} (h : startsTerm k = true) :
    k ≠ .whitespace ∧ k ≠ .comparison .equals ∧ isSeparator k = false := by
  refine ⟨?_, ?_, ?_⟩
  · intro he
    subst he
    contradiction
  · intro he
    subst he
    contradiction
  · cases k <;> first | rfl | contradiction

/-- What the tokens of a term come to, for values of at most `n` tokens. -/
def ReadsTerms (n : Nat) : Prop :=
  ∀ (named : Bool) (v : Value) (r : Reading) (ts rest : Tokens), v.IsShaped named → v.rank = 3 →
    v.kinds.length ≤ n → ts.map Placed.kind = v.kinds → r.Holds ts → equalsSign? rest = none →
    ∃ tree, term named (ts ++ rest) = .accepted tree rest ∧ r.ReadsAs tree v

/-- The first token of a value begins a term. -/
theorem exists_cons_of_kinds {named : Bool} {v : Value} (h : v.IsShaped named) {ts : Tokens}
    (hk : ts.map Placed.kind = v.kinds) : ∃ t us, ts = t :: us ∧ startsTerm t.kind = true := by
  obtain ⟨⟨hf, hr⟩, -⟩ := row_mem named v h
  obtain ⟨k, ks, e, hs⟩ := startsTerm_kinds hf hr
  rw [kinds_row, e, List.cons_append] at hk
  obtain ⟨t, us, rfl, rfl, -⟩ := List.map_eq_cons_iff.1 hk
  exact ⟨t, us, rfl, hs⟩

/-- The rows that the grammar reads: items that are no lists. -/
def IsRow (named : Bool) (items : List (Separator × Value)) : Prop :=
  ∀ p ∈ items, IsShaped named p.2 ∧ p.2.rank = 3

/-- No equals sign follows an item. -/
theorem equalsSign?_row {named : Bool} {items : List (Separator × Value)}
    (hi : IsRow named items) {ts rest : Tokens} (hk : ts.map Placed.kind = rowKinds items)
    (hr : EndsRow rest) : equalsSign? (ts ++ rest) = none := by
  match items, hi, hk with
  | [], _, hk =>
    obtain rfl := List.map_eq_nil_iff.1 hk
    obtain ⟨t, behind, e, ht⟩ := hr
    refine equalsSign?_eq_none e ?_
    rcases ht with e | e | e <;> simp [e]
  | (s, v) :: items, hi, hk =>
    rw [rowKinds, List.flatMap_cons, List.append_assoc] at hk
    obtain ⟨ss, us, rfl, hs, hu⟩ := List.map_eq_append_iff.1 hk
    obtain ⟨as, bs, rfl, ha, -⟩ := List.map_eq_append_iff.1 hu
    obtain ⟨hv, hl⟩ := hi _ List.mem_cons_self
    obtain ⟨t, us, rfl, ht⟩ := exists_cons_of_kinds hv ha
    cases s with
    | comma =>
      obtain ⟨c, ss, rfl, hc, -⟩ := List.map_eq_cons_iff.1 hs
      exact equalsSign?_eq_none (skipBlank_cons (by simp [hc]) _) (by simp [hc])
    | slash =>
      obtain ⟨c, ss, rfl, hc, -⟩ := List.map_eq_cons_iff.1 hs
      exact equalsSign?_eq_none (skipBlank_cons (by simp [hc]) _) (by simp [hc])
    | space =>
      obtain ⟨b, ss, rfl, hb, he⟩ := List.map_eq_cons_iff.1 hs
      obtain rfl := List.map_eq_nil_iff.1 he
      obtain ⟨hw, he, -⟩ := startsTerm_ne ht
      exact equalsSign?_eq_none ((skipBlank_blank hb _).trans (skipBlank_cons hw _)) he

/-- A separator that is no blank, with the term behind it and what follows. -/
theorem terms_separator {named : Bool} {c : Placed} (hc : isSeparator c.kind = true)
    (hw : c.kind ≠ .whitespace) {s as left rest : Tokens} (hs : Tokens.skipBlank s = as)
    {tree : Tree} {trees : List Tree} (htree : term named as = .accepted tree left)
    (ht : terms named left = .accepted trees rest) :
    terms named (c :: s) = .accepted (c.leaf :: tree :: trees) rest := by
  rw [terms_eq, skipBlank_cons hw]
  simp only [hc, ↓reduceIte, bind_apply, blank_apply, hs, htree, ht, pure_apply]

/-- A blank that separates, with the term behind it and what follows. -/
theorem terms_blank {named : Bool} {b t : Placed} (hb : b.kind = .whitespace)
    (ht : startsTerm t.kind = true) {s left rest : Tokens} {tree : Tree} {trees : List Tree}
    (htree : term named (t :: s) = .accepted tree left)
    (hts : terms named left = .accepted trees rest) :
    terms named (b :: t :: s) = .accepted (b.leaf :: tree :: trees) rest := by
  obtain ⟨hw, -, hsep⟩ := startsTerm_ne ht
  have hblank : Tokens.isBlank b = true := by
    rw [Tokens.isBlank, Token.isWhitespace, beq_iff_eq]
    exact hb
  rw [terms_eq, skipBlank_blank hb, skipBlank_cons hw]
  simp only [hsep, ht, Bool.false_eq_true, ↓reduceIte, bind_apply, htree, hts, pure_apply,
    blankLeaf, hblank, List.singleton_append]

/-- Where a row ends, no term follows. -/
theorem terms_nil (named : Bool) {rest : Tokens} (hr : EndsRow rest) :
    terms named rest = .accepted [] (Tokens.skipBlank rest) := by
  obtain ⟨t, behind, e, ht⟩ := hr
  have hs : isSeparator t.kind = false ∧ startsTerm t.kind = false := by
    rcases ht with e | e | e <;> rw [e] <;> exact ⟨rfl, rfl⟩
  rw [terms_eq, e]
  simp only [hs.1, hs.2, Bool.false_eq_true, ↓reduceIte]

/-- The items of a row behind its first one. -/
theorem terms_row {n : Nat} (hn : ReadsTerms n) {named : Bool} {r : Reading} {rest : Tokens}
    (hr : EndsRow rest) (items : List (Separator × Value)) (hi : IsRow named items)
    (hl : (rowKinds items).length ≤ n) {ts : Tokens} (hk : ts.map Placed.kind = rowKinds items)
    (hh : r.Holds ts) :
    ∃ trees, terms named (ts ++ rest) = .accepted trees (Tokens.skipBlank rest) ∧
      r.row none trees = pure items := by
  induction items generalizing ts with
  | nil =>
    obtain rfl := List.map_eq_nil_iff.1 hk
    exact ⟨[], terms_nil named hr, rfl⟩
  | cons p items ih =>
    obtain ⟨s, v⟩ := p
    have hi' : IsRow named items := fun p hp => hi p (List.mem_cons_of_mem _ hp)
    rw [rowKinds, List.flatMap_cons, List.append_assoc] at hk
    simp only [rowKinds, List.flatMap_cons, List.length_append] at hl ih
    -- the tokens of the separator, of its item, and of the items behind
    obtain ⟨ss, us, rfl, hs, hu⟩ := List.map_eq_append_iff.1 hk
    obtain ⟨as, bs, rfl, ha, hb⟩ := List.map_eq_append_iff.1 hu
    obtain ⟨hhs, hhu⟩ := hh.append
    obtain ⟨hha, hhb⟩ := hhu.append
    obtain ⟨trees, ht, hrow⟩ := ih hi' (by omega) hb hhb
    obtain ⟨hv, hrank⟩ := hi _ List.mem_cons_self
    obtain ⟨tree, htree, hread⟩ := hn named v r as (bs ++ rest) hv hrank (by omega) ha hha
      (equalsSign?_row hi' hb hr)
    obtain ⟨t, as, rfl, hst⟩ := exists_cons_of_kinds hv ha
    obtain ⟨hw, -, -⟩ := startsTerm_ne hst
    have front := skipBlank_cons hw (as ++ (bs ++ rest))
    simp only [List.append_assoc, List.cons_append] at htree ⊢
    cases s with
    | comma =>
      obtain ⟨c, ss, rfl, hc, he⟩ := List.map_eq_cons_iff.1 hs
      obtain ⟨b, ss, rfl, hbl, he⟩ := List.map_eq_cons_iff.1 he
      obtain rfl := List.map_eq_nil_iff.1 he
      have hkind : r.separator? c.index = some .comma := by
        rw [separator?, kind?_of_holds hhs.cons.1, hc]
      have behind : Tokens.skipBlank (b :: t :: (as ++ (bs ++ rest))) = t :: (as ++ (bs ++ rest)) := by
        rw [skipBlank_blank hbl, front]
      exact ⟨c.leaf :: tree :: trees,
        terms_separator (by rw [hc]; rfl) (by simp [hc]) behind htree ht,
        row_separator hkind hread hrow⟩
    | space =>
      obtain ⟨b, ss, rfl, hbl, he⟩ := List.map_eq_cons_iff.1 hs
      obtain rfl := List.map_eq_nil_iff.1 he
      have hkind : r.separator? b.index = some .space := by
        rw [separator?, kind?_of_holds hhs.cons.1, hbl]
      exact ⟨b.leaf :: tree :: trees, terms_blank hbl hst htree ht, row_separator hkind hread hrow⟩
    | slash =>
      obtain ⟨c, ss, rfl, hc, he⟩ := List.map_eq_cons_iff.1 hs
      obtain rfl := List.map_eq_nil_iff.1 he
      have hkind : r.separator? c.index = some .slash := by
        rw [separator?, kind?_of_holds hhs.cons.1, hc]
      exact ⟨c.leaf :: tree :: trees,
        terms_separator (by rw [hc]; rfl) (by simp [hc]) front htree ht,
        row_separator hkind hread hrow⟩

/-- A whole value: its row, and the tree of it. -/
theorem value_row {n : Nat} (hn : ReadsTerms n) {named : Bool} {v : Value} (hv : v.IsShaped named)
    (hl : v.kinds.length ≤ n) {r : Reading} {ts rest : Tokens}
    (hk : ts.map Placed.kind = v.kinds) (hh : r.Holds ts) (hr : EndsRow rest) :
    ∃ place trees,
      value named (ts ++ rest) = .accepted (.node .value place trees) (Tokens.skipBlank rest) ∧
      r.row none trees = pure ((.space, v.row.1) :: v.row.2) := by
  have hi : IsRow named v.row.2 := fun p hp => ((row_mem named v hv).2 p hp).2
  obtain ⟨hfirst, hrank⟩ := (row_mem named v hv).1
  rw [kinds_row] at hk hl
  rw [List.length_append] at hl
  obtain ⟨as, bs, rfl, ha, hb⟩ := List.map_eq_append_iff.1 hk
  obtain ⟨hha, hhb⟩ := hh.append
  obtain ⟨trees, ht, hrow⟩ := terms_row hn hr v.row.2 hi (by omega) hb hhb
  obtain ⟨tree, htree, hread⟩ := hn named v.row.1 r as (bs ++ rest) hfirst hrank (by omega) ha hha
    (equalsSign?_row hi hb hr)
  refine ⟨tree.first, tree :: trees, ?_, row_node hread none hrow⟩
  rw [value_eq, List.append_assoc]
  simp only [bind_apply, htree, ht, pure_apply]

/-- A token that is a term by itself. -/
theorem term_single {k : TokenKind} (hs : startsTerm k = true) (hf : ∀ name, k ≠ .function name)
    (named : Bool) {ts rest : Tokens} (hk : ts.map Placed.kind = [k])
    (he : equalsSign? rest = none) :
    ∃ t, ts = [t] ∧ t.kind = k ∧
      term named (ts ++ rest) = .accepted (.node .term t.index [t.leaf]) rest := by
  obtain ⟨t, us, rfl, rfl, hu⟩ := List.map_eq_cons_iff.1 hk
  obtain rfl := List.map_eq_nil_iff.1 hu
  refine ⟨t, rfl, rfl, ?_⟩
  have hn : (if (named && t.kind.isIdent) = true then equalsSign? rest else none) = none := by
    rw [he, ite_self]
  rw [term_eq, List.singleton_append]
  dsimp only
  rw [hn]
  dsimp only
  split
  · rename_i name e
    exact absurd e (hf name)
  · rw [if_pos hs]

/-- A token that reads as a value by itself. -/
theorem readsTerm_single {k : TokenKind} {v : Value} (hs : startsTerm k = true)
    (hf : ∀ name, k ≠ .function name) {named : Bool} {r : Reading} {ts rest : Tokens}
    (hk : ts.map Placed.kind = [k]) (hh : r.Holds ts) (he : equalsSign? rest = none)
    (hv : ∀ t : Placed, t.token.kind = k → r.tokens[t.index]? = some t.token →
      r.literal t.index = pure (some v)) :
    ∃ tree, term named (ts ++ rest) = .accepted tree rest ∧ r.ReadsAs tree v := by
  obtain ⟨t, rfl, ht, e⟩ := term_single hs hf named hk he
  refine ⟨_, e, rfl, ?_⟩
  rw [Reading.term]
  exact hv t ht hh.cons.1

/-- Arguments are written as one value, which gives them back. -/
theorem exists_arguments {arguments : List Value} (hne : arguments ≠ [])
    (h : ShapedItems true Separator.comma.strength arguments) :
    ∃ w, IsShaped true w ∧ w.kinds = joinedKinds .comma arguments ∧ w.commaItems = arguments := by
  match arguments, hne, h with
  | [a], _, h =>
    obtain ⟨ha, hr, -⟩ := h
    refine ⟨a, ha, by rw [joinedKinds, tailKinds, List.append_nil], ?_⟩
    match a, hr with
    | .list .comma _, hr => exact absurd hr (Nat.lt_irrefl _)
    | .list .space _, _ | .list .slash _, _ | .string _, _ | .number _ _, _ | .ident _, _
    | .color _, _ | .url _, _ | .call _ _, _ | .named _ _, _ => rfl
  | a :: b :: rest, _, h =>
    exact ⟨.list .comma (a :: b :: rest), ⟨by simp, h⟩, rfl, rfl⟩

/-- A call, by the induction on what stands between its parentheses. -/
theorem readsTerm_call {n : Nat} (hn : ReadsTerms n) {name : String} {arguments : List Value}
    (hc : colorCall? name arguments = none)
    (ha : ShapedItems true Separator.comma.strength arguments)
    (hl : (joinedKinds .comma arguments).length ≤ n) {named : Bool} {r : Reading}
    {ts rest : Tokens} (hk : ts.map Placed.kind = (Value.call name arguments).kinds)
    (hh : r.Holds ts) :
    ∃ tree, term named (ts ++ rest) = .accepted tree rest ∧
      r.ReadsAs tree (.call name arguments) := by
  rw [kinds] at hk
  obtain ⟨f, us, rfl, hf, hu⟩ := List.map_eq_cons_iff.1 hk
  obtain ⟨as, cs, rfl, has, hcs⟩ := List.map_eq_append_iff.1 hu
  obtain ⟨c, cs, rfl, hcl, hcs⟩ := List.map_eq_cons_iff.1 hcs
  obtain rfl := List.map_eq_nil_iff.1 hcs
  obtain ⟨hhf, hhas⟩ := hh.cons
  have hname : r.functionName? f.index = some name := by
    rw [functionName?, kind?_of_holds hhf, hf]
  have hcall : Value.ofCall name arguments = .call name arguments := by rw [ofCall, hc]
  have hblank : Tokens.skipBlank (c :: rest) = c :: rest := skipBlank_cons (by simp [hcl]) rest
  have hclose : isClosingParen c.kind = true := by rw [hcl]; rfl
  have hterm : term named (f :: as ++ [c] ++ rest) = functionCall f.leaf (as ++ c :: rest) := by
    rw [term_eq]
    simp only [List.cons_append, List.append_assoc, List.nil_append, hf, TokenKind.isIdent,
      Bool.and_false, Bool.false_eq_true, ↓reduceIte]
  rw [← List.cons_append, hterm]
  -- without arguments there is no value between the parentheses
  by_cases hne : arguments = []
  · subst hne
    obtain rfl := List.map_eq_nil_iff.1 has
    refine ⟨.node .functionCall f.index [f.leaf, c.leaf], ?_, rfl, ?_⟩
    · simp only [functionCall, bind_apply, blank_apply, List.nil_append, hblank, take?_cons, hclose,
        ↓reduceIte, pure_apply]
      rfl
    · rw [Reading.term]
      simp only [Tree.first, Placed.leaf, hname, Reading.arguments, Noted.pure_bind, Option.map_some,
        hcall]
  · obtain ⟨w, hw, hwk, hwc⟩ := exists_arguments hne ha
    have hend : EndsRow (c :: rest) := .of_cons (Or.inl hcl)
    rw [← hwk] at has hl
    obtain ⟨place, trees, hv, hrow⟩ := value_row hn hw hl has hhas.append.1 hend
    obtain ⟨t, as, rfl, ht⟩ := exists_cons_of_kinds hw has
    rw [hblank] at hv
    have hb := skipBlank_cons (startsTerm_ne ht).1 (as ++ c :: rest)
    have ho : isClosingParen t.kind = false := by
      cases hk : t.kind <;> rw [hk] at ht <;> first | rfl | contradiction
    refine ⟨.node .functionCall f.index [f.leaf, .node .value place trees, c.leaf], ?_, rfl, ?_⟩
    · rw [List.cons_append] at hv ⊢
      simp only [functionCall, bind_apply, blank_apply, hb, take?_cons, ho, Bool.false_eq_true,
        ↓reduceIte, hv, hblank, take_cons, hclose, pure_apply]
      rfl
    · rw [Reading.term]
      simp only [Tree.first, Placed.leaf, hname, Reading.arguments, hrow, Noted.pure_bind,
        combine_row hw, hwc, Option.map_some, hcall]

/-- A named argument, by what is known of its value. -/
theorem readsTerm_named {n : Nat} (hn : ReadsTerms n) {name : String} {v : Value}
    (hv : v.IsShaped false) (hr : v.rank = 3) (hl : v.kinds.length ≤ n) {r : Reading}
    {ts rest : Tokens} (hk : ts.map Placed.kind = (Value.named name v).kinds) (hh : r.Holds ts)
    (he : equalsSign? rest = none) :
    ∃ tree, term true (ts ++ rest) = .accepted tree rest ∧ r.ReadsAs tree (.named name v) := by
  rw [kinds] at hk
  obtain ⟨i, us, rfl, hi, hu⟩ := List.map_eq_cons_iff.1 hk
  obtain ⟨e, as, rfl, heq, has⟩ := List.map_eq_cons_iff.1 hu
  obtain ⟨hhi, hhe⟩ := hh.cons
  obtain ⟨tree, htree, hread⟩ := hn false v r as rest hv hr hl has hhe.cons.2 he
  obtain ⟨t, as, rfl, ht⟩ := exists_cons_of_kinds hv has
  have hname : r.ident? i.index = some name := by
    rw [ident?, kind?_of_holds hhi, hi]
  have hs : equalsSign? (e :: (t :: as ++ rest)) = some (e.leaf, t :: as ++ rest) := by
    rw [equalsSign?, skipBlank_cons (by simp [heq])]
    simp only [heq, ↓reduceIte, List.cons_append, skipBlank_cons (startsTerm_ne ht).1]
  refine ⟨.node .namedArgument i.index [i.leaf, e.leaf, tree], ?_, rfl, ?_⟩
  · rw [term_eq, List.cons_append, List.cons_append]
    simp only [hi, TokenKind.isIdent, Bool.and_self, ↓reduceIte, hs, namedArgument, bind_apply,
      htree, pure_apply]
    rfl
  · obtain ⟨hn, ht⟩ := hread
    cases tree with
    | leaf => contradiction
    | node kind place children =>
      rw [Reading.term]
      simp only [Tree.first, Placed.leaf, hname, Reading.firstTerm, ht, Noted.pure_bind,
        Option.map_some]

/-- Every item of a row is read as itself, wherever it stands. -/
theorem readsTerms (n : Nat) : ReadsTerms n := by
  induction n with
  | zero =>
    intro named v r ts rest hv hr hl hk hh he
    obtain ⟨k, ks, e, -⟩ := startsTerm_kinds hv hr
    rw [e] at hl
    exact absurd hl (by simp)
  | succ n ih =>
    intro named v r ts rest hv hr hl hk hh he
    -- calls and named arguments hold shorter values, everything else is one token
    match v, hv, hr with
    | .string content, _, _ =>
      apply readsTerm_single rfl (by simp) hk hh he
      intro t ht h
      simp only [Reading.literal, h, ht]
    | .number x none, _, _ =>
      rw [kinds, numberKind] at hk
      apply readsTerm_single rfl (by simp) hk hh he
      intro t ht h
      simp only [Reading.literal, h, ht]
    | .number x (some u), _, _ =>
      rw [kinds, numberKind] at hk
      by_cases hp : u = "%"
      · rw [if_pos hp] at hk
        apply readsTerm_single rfl (by simp) hk hh he
        intro t ht h
        simp only [Reading.literal, h, ht, hp]
      · rw [if_neg hp] at hk
        apply readsTerm_single rfl (by simp) hk hh he
        intro t ht h
        simp only [Reading.literal, h, ht]
    | .ident name, _, _ =>
      apply readsTerm_single rfl (by simp) hk hh he
      intro t ht h
      simp only [Reading.literal, h, ht]
    | .color c, _, _ =>
      apply readsTerm_single rfl (by simp [Lexeme.colorKind]) hk hh he
      intro t ht h
      simp only [Reading.literal, h, ht, Lexeme.colorKind, hashValue, Lexeme.ofHex?_colorDigits,
        Noted.pure_bind]
    | .url address, _, _ =>
      apply readsTerm_single rfl (by simp) hk hh he
      intro t ht h
      simp only [Reading.literal, h, ht]
    | .call name arguments, hv, _ =>
      obtain ⟨-, hc, -, ha⟩ := hv
      refine readsTerm_call ih hc ha ?_ hk hh
      simp only [kinds, List.length_cons, List.length_append] at hl
      omega
    | .named name w, hv, _ =>
      obtain ⟨rfl, -, hw, hn⟩ := hv
      refine readsTerm_named ih hn hw ?_ hk hh he
      simp only [kinds, List.length_cons] at hl
      omega
    | .list s _, _, hr => exact absurd hr (Nat.ne_of_lt (strength_lt s))

end Grammar

end Stylesheet
